import ContainerPreview.Proofs.Css.Calm

/-!
# Cutting again

A sign that was cut from a text is written, and cut again from what is written: this holds of a
sign in any text that it ends before.  Names without escapes are written as they are, so that
what is cut where a name begins is known from the name and from what follows.
-/

namespace ContainerPreview.Css

open Text

/-! ## Names without escapes -/

/-- A name without escapes is what it was read from. -/
theorem nameAt_of_noEscape {text : List Char} (noEscape : '\\' ∉ text.take (nameAt text).2) :
    (nameAt text).1 = text.take (nameAt text).2 ∧ (nameAt text).1.all isInName := by
  fun_induction nameAt text with
  | case1 => simp
  | case2 c rest inName name length isName inductionHypothesis =>
      rw [isName] at inductionHypothesis
      rw [List.take_succ_cons, List.mem_cons, not_or] at noEscape
      obtain ⟨same, areInName⟩ := inductionHypothesis noEscape.2
      rw [List.take_succ_cons, ← same, List.all_cons, inName, areInName]
      exact ⟨rfl, rfl⟩
  | case3 c rest notInName escapes =>
      obtain rfl : c = '\\' := Option.some.inj (head_of_startsEscape escapes)
      rw [List.take_succ_cons] at noEscape
      exact absurd List.mem_cons_self noEscape
  | case4 => simp

theorem nameAt_append {name rest : List Char} (areInName : name.all isInName)
    (ends : continuesName rest = false) : nameAt (name ++ rest) = (name, name.length) := by
  induction name with
  | nil => exact nameAt_of_not_continuesName ends
  | cons c name inductionHypothesis =>
      rw [List.all_cons, Bool.and_eq_true] at areInName
      rw [List.cons_append, nameAt_cons_of_isInName areInName.1, inductionHypothesis areInName.2]
      rfl

theorem writeName_of_all {name : List Char} (areInName : name.all isInName) :
    writeName name = name := by
  induction name with
  | nil => rfl
  | cons c name inductionHypothesis =>
      rw [List.all_cons, Bool.and_eq_true] at areInName
      have same : writeNameChar c = [c] := if_pos areInName.1
      rw [writeName, List.flatMap_cons, same, ← writeName, inductionHypothesis areInName.2]
      rfl

theorem writeStart_of_all {c : Char} {name : List Char} (starts : startsName c)
    (areInName : name.all isInName) : writeStart (c :: name) = c :: name := by
  have same : writeFirst c = [c] := if_pos starts
  rw [writeStart, same, writeName_of_all areInName]
  rfl

theorem not_startsEscape_of_isInName {c : Char} (inName : isInName c) (rest : List Char) :
    startsEscape (c :: rest) = false := by
  refine Bool.eq_false_iff.mpr fun escapes => ?_
  obtain rfl : c = '\\' := Option.some.inj (head_of_startsEscape escapes)
  cases inName

/-- An identifier without escapes is written as it is. -/
theorem writeIdent_of_startsIdent {name rest : List Char} (areInName : name.all isInName)
    (ends : continuesName rest = false) (starts : startsIdent (name ++ rest)) :
    writeIdent name = name := by
  rw [continuesName, Bool.or_eq_false_iff] at ends
  have notHere : ∀ {c : Char} {name : List Char}, (c :: name).all isInName → c ≠ '-' →
      startsIdent (c :: (name ++ rest)) → startsName c := fun areInName notHyphen starts => by
    rw [List.all_cons, Bool.and_eq_true] at areInName
    rwa [startsIdent_cons notHyphen, not_startsEscape_of_isInName areInName.1, Bool.or_false]
      at starts
  unfold writeIdent
  split
  · rw [List.singleton_append, startsIdent, ends.2, Bool.or_false] at starts
    cases rest with
    | nil => cases starts
    | cons c rest => simp_all [isInName]
  · rename_i name
    simp only [List.all_cons, Bool.and_eq_true] at areInName
    rw [writeName_of_all areInName.2.2]
  · rename_i name notAlone notDouble
    cases name with
    | nil => exact absurd rfl notAlone
    | cons c name =>
        rw [List.all_cons, Bool.and_eq_true] at areInName
        have inside := areInName.2
        rw [List.all_cons, Bool.and_eq_true] at inside
        have notHyphen : c ≠ '-' := by
          rintro rfl
          exact notDouble name rfl
        have startsHere : startsName c := by
          simpa [startsIdent, not_startsEscape_of_isInName inside.1, notHyphen] using starts
        rw [writeStart_of_all startsHere inside.2]
  · rename_i notAlone _ notHyphen
    cases name with
    | nil => rfl
    | cons c name =>
        have isFirst : c ≠ '-' := by
          rintro rfl
          exact notHyphen name rfl
        have inside := areInName
        rw [List.all_cons, Bool.and_eq_true] at inside
        exact writeStart_of_all (notHere areInName isFirst starts) inside.2

/-- The name that a text begins with is the text itself up to where it ends. -/
theorem exists_name {text : List Char} (noEscape : '\\' ∉ text.take (nameAt text).2) :
    ∃ name rest, text = name ++ rest ∧ name.all isInName ∧ continuesName rest = false ∧
      nameAt text = (name, name.length) := by
  obtain ⟨same, areInName⟩ := nameAt_of_noEscape noEscape
  have ends := not_continuesName_drop_nameAt text
  have isText : text = (nameAt text).1 ++ text.drop (nameAt text).2 := by
    rw [same, List.take_append_drop]
  refine ⟨(nameAt text).1, text.drop (nameAt text).2, isText, areInName, ends, ?_⟩
  conv_lhs => rw [isText]
  exact nameAt_append areInName ends

/-! ## What is cut again -/

/-- A sign that was cut from a text, with some rest, is written as text that it is cut from again.
What follows it may be another text that it ends before. -/
structure Recut (text : List Char) (sign : Sign) (rest : List Char) : Prop where
  ends : sign.EndsBefore rest
  cuts : ∀ rest', sign.EndsBefore rest' → Cuts sign.write sign rest'
  follows : ∀ new, Follows new rest → Follows (sign.write ++ new) text
  tidy : sign.write.all isTidy
  verbatim : sign.isVerbatim → text ≠ [] → sign.write ++ rest = text

/-- What is written as it was is cut again. -/
theorem Recut.ofSame {taken rest : List Char} {sign : Sign} (areTidy : (taken ++ rest).all isTidy)
    (same : sign.write = taken) (ends : sign.EndsBefore rest)
    (cuts : ∀ rest', sign.EndsBefore rest' → Cuts taken sign rest') :
    Recut (taken ++ rest) sign rest where
  ends := ends
  cuts := by rwa [same]
  follows := fun new follows => by
    rw [same]
    exact follows.append taken
  tidy := by
    rw [List.all_append, Bool.and_eq_true] at areTidy
    rw [same]
    exact areTidy.1
  verbatim := fun _ _ => by rw [same]

/-- A sign whose text starts with a character that no sign goes on with. -/
theorem Follows.of_isStop {c : Char} (stops : isStop c) (text other : List Char) :
    Follows (c :: text) other :=
  .stop fun _ isHead => Option.some.inj isHead ▸ stops

theorem endsBefore_of_noBars {sign : Sign} (noBars : sign.bars = [])
    (notQuoted : sign.needsQuote = false) (rest : List Char) : sign.EndsBefore rest where
  noBar := by simp [noBars]
  quoted := by simp [notQuoted]

/-- A text that goes on in two ways, one of which is further on. -/
theorem taken_eq {taken rest front after : List Char} {length : Nat}
    (isText : taken ++ rest = front ++ after) (isLength : taken.length = front.length + length) :
    taken = front ++ after.take length ∧ rest = after.drop length := by
  have isTake := congrArg (List.take taken.length) isText
  have isDrop := congrArg (List.drop taken.length) isText
  rw [List.take_left, isLength, List.take_length_add_append] at isTake
  rw [List.drop_left, isLength, List.drop_length_add_append] at isDrop
  exact ⟨isTake, isDrop⟩

/-! ## Blanks, ranges and arrows -/

section Kinds

variable {c : Char} {more rest : List Char}

theorem gapLength_append {gaps rest : List Char} (areGaps : gaps.all isGap)
    (ends : ∀ c ∈ rest.head?, isGap c = false) : gapLength (gaps ++ rest) = gaps.length := by
  rw [gapLength, List.takeWhile_append_of_pos (List.all_eq_true.mp areGaps)]
  cases rest with
  | nil => simp
  | cons c rest => simp [ends c rfl]

theorem areGaps_of_gapLength (gaps : List Char) {rest : List Char}
    (isLength : gapLength (gaps ++ rest) = gaps.length) :
    gaps.all isGap ∧ ∀ c ∈ rest.head?, isGap c = false := by
  have isSplit : (gaps ++ rest).takeWhile isGap ++ (gaps ++ rest).dropWhile isGap = gaps ++ rest :=
    List.takeWhile_append_dropWhile
  obtain ⟨same, isRest⟩ := List.append_inj isSplit isLength
  constructor
  · rw [← same]
    exact List.all_eq_true.mpr fun c member => List.mem_takeWhile_imp member
  · intro c isHead
    have notGap := List.head?_dropWhile_not isGap (gaps ++ rest)
    rw [isRest, isHead] at notGap
    exact notGap

theorem recut_blank (areTidy : ((c :: more) ++ rest).all isTidy) (gap : isGap c)
    (isLength : gapLength (c :: (more ++ rest)) = more.length + 1) :
    Recut (c :: more ++ rest) (.lexeme (.blank (c :: more))) rest := by
  obtain ⟨areGaps, ends⟩ := areGaps_of_gapLength (c :: more) isLength
  refine .ofSame areTidy rfl ⟨?_, nofun⟩ fun rest' ends' => ⟨c, more, rfl, ?_⟩
  · simp only [Sign.bars, List.forall_mem_singleton, Bar.meets_nil]
    cases rest with
    | nil => simp
    | cons d rest => simpa using ends d rfl
  · have noGap : ∀ d ∈ rest'.head?, isGap d = false := fun d isHead => by
      have noBar := ends'.noBar _ List.mem_cons_self
      rw [Bar.meets_nil, isHead] at noBar
      simpa using noBar
    have again := gapLength_append areGaps noGap
    rw [List.cons_append] at again
    rw [signsAt_blank gap, again, oneLexeme, ← List.cons_append, List.take_left]

theorem signsAt_range (range : opensRange c rest) :
    signsAt c rest = oneLexeme (.codeRange (codeRangeAt rest.tail).1 (codeRangeAt rest.tail).2.1)
      ((codeRangeAt rest.tail).2.2 + 2) := by
  have noGap := gapLength_eq_zero
    (not_isGap_of_startsIdent (startsIdent_of_opensRange range)) rest
  unfold opensRange isRangeChar at range
  unfold signsAt
  simp only [noGap, range]
  rfl

theorem continuesRange_iff {text : List Char} :
    continuesRange text = false ↔
      ∀ bar ∈ (Sign.lexeme (.codeRange 0 0)).bars, ¬bar.Meets text := by
  simp only [Sign.bars, List.forall_mem_cons, Bar.meets_nil, Bar.meets_cons]
  unfold continuesRange
  split
  · rename_i rest
    simp [show isRangeChar '-' = false from rfl]
  · rename_i notHyphen
    simp only [Bool.not_eq_true, List.not_mem_nil, false_implies, implies_true,
      and_true]
    refine ⟨fun ends => ⟨ends, ?_⟩, fun ends => ends.1⟩
    rintro ⟨rest, rfl, -⟩
    exact notHyphen rest rfl

theorem isTidy_of_isHex {c : Char} (hex : isHex c) : isTidy c :=
  forall_ascii (fun c => isHex c → isTidy c) (by decide) (toNat_of_isHex hex) hex

theorem recut_range (first last : Nat) (range : opensRange c (more ++ rest))
    (isFirst : (codeRangeAt (more ++ rest).tail).1 = first)
    (isLast : (codeRangeAt (more ++ rest).tail).2.1 = last) (ends : continuesRange rest = false) :
    Recut (c :: more ++ rest) (.lexeme (.codeRange first last)) rest where
  ends := ⟨continuesRange_iff.mp ends, nofun⟩
  cuts := fun rest' ends' => by
    have ends' := continuesRange_iff.mpr ends'.noBar
    obtain ⟨firstBound, lastBound⟩ := codeRangeAt_lt (more ++ rest).tail
    rw [isFirst] at firstBound
    rw [isLast] at lastBound
    obtain ⟨-, areHex, nonempty⟩ := hexNumber_writeHex first
    have opens : opensRange 'U' ((writeCodeRange first last).drop 1 ++ rest') := by
      obtain ⟨d, digits, isDigits⟩ := List.exists_cons_of_ne_nil nonempty
      have hex : isRangeChar d := by
        simp [isRangeChar, areHex d (by simp [isDigits])]
      simp [opensRange, writeCodeRange, isDigits, hex]
    refine ⟨'U', (writeCodeRange first last).drop 1, rfl, ?_⟩
    have isTail : ((writeCodeRange first last).drop 1 ++ rest').tail =
        (writeCodeRange first last).drop 2 ++ rest' := rfl
    have atLeast : 2 ≤ (writeCodeRange first last).length := by
      simp [writeCodeRange]
    rw [signsAt_range opens, isTail, codeRangeAt_write firstBound lastBound ends', oneLexeme]
    simp only [Sign.write, writeLexeme]
    congr 1
  follows := fun new _ => by
    simp only [opensRange, Bool.and_eq_true] at range
    exact .letter rfl range.1.1
  tidy := by
    obtain ⟨-, firstHex, -⟩ := hexNumber_writeHex first
    obtain ⟨-, lastHex, -⟩ := hexNumber_writeHex last
    have ofHex : ∀ {digits : List Char}, (∀ c ∈ digits, isHex c) → digits.all isTidy := fun areHex =>
      List.all_eq_true.mpr fun c member => isTidy_of_isHex (areHex c member)
    simp only [Sign.write, writeLexeme, writeCodeRange]
    split_ifs <;> simp [ofHex firstHex, ofHex lastHex] <;> decide
  verbatim := nofun

theorem exists_of_opensArrow (arrow : opensArrow c rest) :
    ∃ after, c = '-' ∧ rest = '-' :: '>' :: after := by
  obtain ⟨after, dropped⟩ := Option.isSome_iff_exists.mp arrow
  have isText : c :: rest = '-' :: '-' :: '>' :: after := dropStart?_eq_some_iff.mp dropped
  exact ⟨after, List.cons.inj isText⟩

theorem recut_arrow (areTidy : ((c :: more) ++ rest).all isTidy)
    (arrow : opensArrow c (more ++ rest)) (isLength : more.length + 1 = 3) :
    Recut (c :: more ++ rest) (.lexeme (.literal (c :: more))) rest := by
  obtain ⟨after, rfl, isText⟩ := exists_of_opensArrow arrow
  have sameText : more ++ rest = ['-', '>'] ++ after := isText
  obtain ⟨rfl, -⟩ := List.append_inj sameText (Nat.succ.inj isLength)
  exact .ofSame areTidy rfl (endsBefore_of_noBars rfl rfl rest) fun rest' _ =>
    ⟨'-', ['-', '>'], rfl, rfl⟩

/-! ## Identifiers -/

theorem continuesName_of_startsIdent {text : List Char} (starts : startsIdent text) :
    continuesName text := by
  cases text with
  | nil => cases starts
  | cons c rest =>
      by_cases hyphen : c = '-'
      · subst hyphen
        exact continuesName_of_isInName rfl rest
      · rw [startsIdent_cons hyphen] at starts
        rw [continuesName, List.head?_cons, Option.any_some, isInName]
        rcases (Bool.or_eq_true _ _).mp starts with here | escapes
        · simp [here]
        · simp [escapes]

/-- A name that an identifier has. -/
structure IsIdent (name : List Char) : Prop where
  areInName : name.all isInName
  isWritten : writeIdent name = name
  nonempty : name ≠ []

theorem isIdent_of_startsIdent {name : List Char} (areInName : name.all isInName)
    (ends : continuesName rest = false) (starts : startsIdent (name ++ rest)) : IsIdent name where
  areInName := areInName
  isWritten := writeIdent_of_startsIdent areInName ends starts
  nonempty := by
    rintro rfl
    rw [List.nil_append] at starts
    rw [continuesName_of_startsIdent starts] at ends
    cases ends

theorem IsIdent.startsIdent {name : List Char} (isIdent : IsIdent name) (rest : List Char) :
    startsIdent (name ++ rest) := by
  have starts := startsIdent_writeIdent isIdent.nonempty rest
  rwa [isIdent.isWritten] at starts

/-- A name is cut as an identifier unless it goes on as something else. -/
theorem IsIdent.signsAt (isIdent : IsIdent (c :: more)) (rest : List Char)
    (notRange : c :: more = ['u'] ∨ c :: more = ['U'] → ¬(Bar.mk ['+'] isRangeChar).Meets rest)
    (notArrow : c :: more = ['-', '-'] → ¬(Bar.mk [] (· == '>')).Meets rest) :
    signsAt c (more ++ rest) = identSigns (c :: (more ++ rest)) := by
  have areInName := isIdent.areInName
  rw [List.all_cons, Bool.and_eq_true] at areInName
  refine signsAt_ident (Bool.eq_false_iff.mpr fun range => ?_)
    (Bool.eq_false_iff.mpr fun arrow => ?_) (isIdent.startsIdent rest)
  · simp only [opensRange, Bool.and_eq_true, Bool.or_eq_true, beq_iff_eq] at range
    obtain ⟨⟨isLetter, isPlus⟩, isNext⟩ := range
    cases more with
    | nil =>
        cases rest with
        | nil => cases isPlus
        | cons d rest =>
            obtain rfl := Option.some.inj isPlus
            refine notRange (isLetter.imp (congrArg ([·])) (congrArg ([·]))) ?_
            exact Bar.meets_cons.mpr ⟨rest, rfl, Bar.meets_nil.mpr isNext⟩
    | cons d more =>
        obtain rfl : d = '+' := Option.some.inj isPlus
        exact absurd areInName.2 (by simp [show isInName '+' = false from rfl])
  · obtain ⟨after, rfl, isMore⟩ := exists_of_opensArrow arrow
    cases more with
    | nil => exact absurd isIdent.isWritten (by decide)
    | cons d more =>
        obtain ⟨rfl, isNext⟩ := List.cons.inj isMore
        cases more with
        | nil =>
            refine notArrow rfl ?_
            obtain rfl : rest = '>' :: after := isNext
            exact Bar.meets_nil.mpr rfl
        | cons e more =>
            obtain rfl : e = '>' := (List.cons.inj isNext).1
            exact absurd areInName.2 (by simp [show isInName '>' = false from rfl])

end Kinds

end ContainerPreview.Css
