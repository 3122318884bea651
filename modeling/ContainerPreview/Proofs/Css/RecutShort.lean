import ContainerPreview.Proofs.Css.Recut

/-!
# Cutting short signs again

Brackets, strings, comments and the literals of a few characters are cut again.  A character is
cut by itself if and only if what follows meets none of the bars of that character.
-/

namespace ContainerPreview.Css

open Text

variable {c : Char} {more rest : List Char}

/-! ## Brackets, strings and comments -/

theorem recut_opening {opener : Opener} (areTidy : ([c] ++ rest).all isTidy)
    (isBracket : opener.bracket? = some c) : Recut ([c] ++ rest) (.opening opener) rest := by
  have isText : (Sign.opening opener).write = [c] := by
    cases opener with
    | function => cases isBracket
    | _ => exact congrArg ([·]) (Option.some.inj isBracket)
  have unquoted : (Sign.opening opener).needsQuote = false := by
    cases opener with
    | function => cases isBracket
    | _ => rfl
  exact .ofSame areTidy isText (endsBefore_of_noBars rfl unquoted rest) fun rest' _ =>
    ⟨c, [], rfl, signsAt_bracket isBracket rest'⟩

theorem recut_closing (areTidy : ([c] ++ rest).all isTidy)
    (isCloser : c = '\x7d' ∨ c = ']' ∨ c = ')') : Recut ([c] ++ rest) (.closing c) rest :=
  .ofSame areTidy rfl (endsBefore_of_noBars rfl rfl rest) fun rest' _ =>
    ⟨c, [], rfl, signsAt_closing isCloser rest'⟩

theorem all_isTidy_writeString {value : List Char} (noZero : '\x00' ∉ value) :
    (value.flatMap writeStringChar).all isTidy := by
  rw [List.all_flatMap, List.all_eq_true]
  intro c member
  exact all_isTidy_writeStringChar fun isZero => noZero (isZero ▸ member)

theorem recut_string {value : List Char} (areTidy : ((c :: more) ++ rest).all isTidy)
    (isValue : (stringAt c (more ++ rest)).1 = value) :
    Recut (c :: more ++ rest) (.lexeme (.string value true)) rest := by
  have isText : (Sign.lexeme (.string value true)).write =
      '"' :: (value.flatMap writeStringChar ++ ['"']) := rfl
  refine ⟨endsBefore_of_noBars rfl rfl rest, fun rest' _ => ⟨'"', _, isText, ?_⟩,
    fun new _ => ?_, ?_, nofun⟩
  · rw [List.append_assoc, List.singleton_append, signsAt_quote, stringSigns, stringAt_write, isText]
    simp [oneLexeme]
  · rw [isText]
    exact .of_isStop rfl _ _
  · have noZero : '\x00' ∉ more ++ rest := fun member => by
      have tidy := List.all_eq_true.mp areTidy _ (List.mem_cons_of_mem c member)
      cases tidy
    have noZero' := zero_not_mem_stringAt c noZero
    rw [isValue] at noZero'
    rw [isText]
    simp [all_isTidy_writeString noZero', show isTidy '"' from rfl]

theorem signsAt_slash (rest : List Char) : signsAt '/' rest = shortSign '/' rest :=
  signsAt_short rfl rfl rfl

theorem recut_comment {text : List Char} (areTidy : ('/' :: '*' :: more ++ rest).all isTidy)
    (isText : (commentAt (more ++ rest)).1 = text) :
    Recut ('/' :: '*' :: more ++ rest) (.lexeme (.comment text)) rest := by
  have isWritten : (Sign.lexeme (.comment text)).write = '/' :: ('*' :: (text ++ ['*', '/'])) := rfl
  refine ⟨endsBefore_of_noBars rfl rfl rest, fun rest' _ => ⟨'/', _, isWritten, ?_⟩,
    fun new _ => ?_, ?_, nofun⟩
  · have again := commentAt_append (more ++ rest) rest'
    rw [isText] at again
    have isStart : dropStart? "/*".toList ('/' :: '*' :: (text ++ '*' :: '/' :: rest')) =
        some (text ++ '*' :: '/' :: rest') := dropStart?_eq_some_iff.mpr rfl
    rw [signsAt_slash, shortSign]
    simp only [List.cons_append, List.append_assoc, List.nil_append, isStart, again, isWritten,
      oneLexeme, List.length_cons, List.length_append, List.length_nil]
  · rw [isWritten]
    exact .of_isStop rfl _ _
  · have textTidy : text.all isTidy := List.all_eq_true.mpr fun c member => by
      rw [← isText] at member
      exact List.all_eq_true.mp areTidy c (by
        rw [List.cons_append, List.cons_append]
        exact List.mem_cons_of_mem _ (List.mem_cons_of_mem _ (mem_of_mem_commentAt member)))
    rw [isWritten]
    simp [textTidy]
    decide

/-! ## Single characters -/

theorem digitCount_eq_zero_iff {text : List Char} :
    digitCount text = 0 ↔ ∀ d ∈ text.head?, d.isDigit = false := by
  cases text with
  | nil => simp [digitCount]
  | cons d text => cases digit : d.isDigit <;> simp [digitCount, digit]

theorem fractionCount_eq_zero_iff {text : List Char} :
    fractionCount text = 0 ↔ ∀ after, text = '.' :: after → ∀ d ∈ after.head?, d.isDigit = false := by
  refine ⟨?_, fractionCount_eq_zero⟩
  rintro isZero after rfl
  exact digitCount_eq_zero_iff.mp isZero

theorem numberLength?_eq_none_iff {sign text : List Char} (isSign : IsSign sign)
    (unsigned : sign = [] → startsWithSign text = false) :
    numberLength? (sign ++ text) = none ↔ digitCount text = 0 ∧ fractionCount text = 0 := by
  obtain ⟨whole, after, rfl, areDigits, ends, isCount⟩ := exists_digits text
  rw [numberLength?_append isSign areDigits ends unsigned, isCount]
  cases whole with
  | nil => simp
  | cons d whole =>
      have positive : (if fractionCount after == 0 then (d :: whole).length
          else (d :: whole).length + 1 + fractionCount after) ≠ 0 := by
        split
        · exact Nat.succ_ne_zero _
        · rw [Nat.add_assoc]
          exact Nat.ne_of_gt (Nat.add_pos_left (Nat.succ_pos _) _)
      simp only [beq_eq_false_iff_ne.mpr positive]
      simp

theorem numberLength?_cons_eq_none_iff :
    numberLength? (c :: rest) = none ↔
      c.isDigit = false ∧ (c = '.' → ∀ d ∈ rest.head?, d.isDigit = false) ∧
      (c = '+' ∨ c = '-' → (∀ d ∈ rest.head?, d.isDigit = false) ∧
        ∀ after, rest = '.' :: after → ∀ d ∈ after.head?, d.isDigit = false) := by
  by_cases signed : c = '+' ∨ c = '-'
  · have isSign : IsSign [c] := by
      rcases signed with rfl | rfl
      · exact .inr (.inl rfl)
      · exact .inr (.inr rfl)
    have notDigit : c.isDigit = false ∧ c ≠ '.' := by rcases signed with rfl | rfl <;> decide
    rw [← List.singleton_append, numberLength?_eq_none_iff isSign (by simp),
      digitCount_eq_zero_iff, fractionCount_eq_zero_iff]
    simp [signed, notDigit]
  · rw [← List.nil_append (c :: rest), numberLength?_eq_none_iff (.inl rfl)
      fun _ => by simpa [startsWithSign] using signed, digitCount_eq_zero_iff,
      fractionCount_eq_zero_iff]
    simp [signed]

theorem shortSign_iff : shortSign c rest = literalOf (c :: rest) 1 ↔
    (c = '/' → rest.head? ≠ some '*') ∧ (c = '<' → ∀ after, rest ≠ '!' :: '-' :: '-' :: after) ∧
      (c = '|' → rest.head? ≠ some '|') ∧
      (['~', '|', '^', '$', '*'].contains c → rest.head? ≠ some '=') := by
  have notLonger : ∀ length, length ≠ 1 → literalOf (c :: rest) length ≠ literalOf (c :: rest) 1 :=
    fun length notOne same => notOne (Prod.mk.inj same).2
  have starts : ∀ {start : List Char}, (dropStart? start (c :: rest)).isSome ↔
      ∃ after, c :: rest = start ++ after := by
    intro start
    rw [Option.isSome_iff_exists]
    exact exists_congr fun after => dropStart?_eq_some_iff
  unfold shortSign
  simp only
  split
  · rename_i comment dropped
    obtain ⟨rfl, rfl⟩ := List.cons.inj (show c :: rest = '/' :: '*' :: comment from
      dropStart?_eq_some_iff.mp dropped)
    refine iff_of_false (fun same => ?_) fun ends => ends.1 rfl rfl
    cases List.singleton_inj.mp (Prod.mk.inj same).1
  · rename_i noComment
    split
    · rename_i isStart
      obtain ⟨after, isText⟩ := starts.mp isStart
      obtain ⟨rfl, rfl⟩ := List.cons.inj (show c :: rest = '<' :: '!' :: '-' :: '-' :: after from
        isText)
      exact iff_of_false (notLonger 4 (by decide)) fun ends => ends.2.1 rfl after rfl
    rename_i noStart
    split
    · rename_i isBars
      obtain ⟨after, isText⟩ := starts.mp isBars
      obtain ⟨rfl, rfl⟩ := List.cons.inj (show c :: rest = '|' :: '|' :: after from isText)
      exact iff_of_false (notLonger 2 (by decide)) fun ends => ends.2.2.1 rfl rfl
    rename_i noBars
    split
    · rename_i isMatch
      rw [Bool.and_eq_true, beq_iff_eq] at isMatch
      exact iff_of_false (notLonger 2 (by decide)) fun ends => ends.2.2.2 isMatch.1 isMatch.2
    · rename_i noMatch
      refine iff_of_true rfl ⟨?_, ?_, ?_, fun isMark isEqual => noMatch ?_⟩
      · rintro rfl isHead
        obtain ⟨after, rfl⟩ := List.head?_eq_some_iff.mp isHead
        cases noComment
      · rintro rfl after rfl
        exact noStart rfl
      · rintro rfl isHead
        obtain ⟨after, rfl⟩ := List.head?_eq_some_iff.mp isHead
        exact noBars rfl
      · rw [isMark, isEqual]
        rfl

theorem startsIdent_eq_false_iff (plain : startsName c = false ∧ c ≠ '\\')
    (notLoose : c = '-' → ∀ after, rest ≠ '\\' :: '\n' :: after) :
    startsIdent (c :: rest) = false ↔
      (c = '-' → ∀ d ∈ rest.head?, (isIdentMark d || d == '-') = false) := by
  have noEscape : startsEscape (c :: rest) = false :=
    Bool.eq_false_iff.mpr fun escapes =>
      plain.2 (Option.some.inj (head_of_startsEscape escapes))
  by_cases hyphen : c = '-'
  · subst hyphen
    have escapes : startsEscape rest = true ↔ rest.head? = some '\\' :=
      ⟨head_of_startsEscape, fun isHead => startsEscape_of_head isHead (notLoose rfl)⟩
    rw [startsIdent, Bool.or_eq_false_iff, ← Bool.not_eq_true (startsEscape rest), escapes]
    cases rest with
    | nil => simp
    | cons d rest =>
        simp [isIdentMark]
        tauto
  · rw [startsIdent_cons hyphen, plain.1, noEscape]
    simp [hyphen]

/-- A character is cut by itself if it goes on with none of its bars. -/
theorem single_iff (plain : startsName c = false ∧ c.isDigit = false ∧ c ≠ '\\')
    (notSpecial : isSpecial c = false)
    (notLoose : c = '-' → ∀ after, rest ≠ '\\' :: '\n' :: after) :
    startsIdent (c :: rest) = false ∧ numberLength? (c :: rest) = none ∧
        shortSign c rest = literalOf (c :: rest) 1 ↔
      ∀ bar ∈ charBars c, ¬bar.Meets rest := by
  have ofHead : ∀ {last : Char → Bool}, (¬(Bar.mk [] last).Meets rest) ↔
      ∀ d ∈ rest.head?, last d = false := by
    intro last
    rw [Bar.meets_nil]
    cases rest <;> simp
  have ofPoint : (¬(Bar.mk ['.'] Char.isDigit).Meets rest) ↔
      ∀ after, rest = '.' :: after → ∀ d ∈ after.head?, d.isDigit = false := by
    simp only [Bar.meets_cons, Bar.meets_nil, not_exists, not_and]
    refine forall_congr' fun after => imp_congr_right fun _ => ?_
    cases after <;> simp
  rw [startsIdent_eq_false_iff ⟨plain.1, plain.2.2⟩ notLoose, numberLength?_cons_eq_none_iff,
    shortSign_iff]
  unfold charBars
  split_ifs with hyphen plus point atSign hash slash less bar mark
  · obtain rfl := beq_iff_eq.mp hyphen
    simp only [List.forall_mem_cons, ofHead, ofPoint]
    cases rest <;> simp [show '-'.isDigit = false from rfl]
    tauto
  · obtain rfl := beq_iff_eq.mp plus
    simp only [List.forall_mem_cons, ofHead, ofPoint]
    simp [show '+'.isDigit = false from rfl]
  · obtain rfl := beq_iff_eq.mp point
    simp only [List.forall_mem_cons, ofHead]
    simp [show '.'.isDigit = false from rfl]
  · obtain rfl := beq_iff_eq.mp atSign
    cases notSpecial
  · obtain rfl := beq_iff_eq.mp hash
    cases notSpecial
  · obtain rfl := beq_iff_eq.mp slash
    simp only [List.forall_mem_cons, ofHead]
    cases rest <;> simp [show '/'.isDigit = false from rfl]
  · obtain rfl := beq_iff_eq.mp less
    have isStart : (Bar.mk ['!', '-'] (· == '-')).Meets rest ↔
        ∃ after, rest = '!' :: '-' :: '-' :: after := by
      simp [Bar.Meets]
    simp only [List.forall_mem_cons, isStart]
    simp [show '<'.isDigit = false from rfl]
  · obtain rfl := beq_iff_eq.mp bar
    simp only [List.forall_mem_cons, ofHead]
    cases rest <;> simp [show '|'.isDigit = false from rfl]
  · have isMark : c = '~' ∨ c = '^' ∨ c = '$' ∨ c = '*' := by simpa using mark
    have isOther : c ≠ '-' ∧ c ≠ '+' ∧ c ≠ '.' ∧ c ≠ '/' ∧ c ≠ '<' ∧ c ≠ '|' := by
      rcases isMark with rfl | rfl | rfl | rfl <;> decide
    simp only [List.forall_mem_cons, ofHead]
    simp [isOther, plain.2.1]
    cases rest <;> simp [isMark]
  · have isOther : c ≠ '-' ∧ c ≠ '+' ∧ c ≠ '.' ∧ c ≠ '/' ∧ c ≠ '<' ∧ c ≠ '|' := by
      simp_all
    have notMark : ['~', '|', '^', '$', '*'].contains c = false := by
      simp_all
    simp [isOther, plain.2.1]
    simp_all

theorem recut_single (areTidy : ([c] ++ rest).all isTidy) (notLoose : NoLooseBackslash rest)
    (notEscape : c ≠ '\\') (notIdent : startsIdent (c :: rest) = false)
    (notNumber : numberLength? (c :: rest) = none) (notSpecial : isSpecial c = false)
    (isCut : shortSign c rest = literalOf (c :: rest) 1) :
    Recut ([c] ++ rest) (.lexeme (.literal [c])) rest := by
  have plain : startsName c = false ∧ c.isDigit = false ∧ c ≠ '\\' := by
    refine ⟨Bool.eq_false_iff.mpr fun starts => ?_, (numberLength?_cons_eq_none_iff.mp notNumber).1,
      notEscape⟩
    rw [startsIdent_of_startsName starts] at notIdent
    cases notIdent
  have noBar := (single_iff plain notSpecial fun _ => notLoose.first).mp ⟨notIdent, notNumber, isCut⟩
  refine .ofSame areTidy rfl ⟨noBar, nofun⟩ fun rest' ends' => ⟨c, [], rfl, ?_⟩
  have noBar' : ∀ bar ∈ charBars c, ¬bar.Meets rest' := ends'.noBar
  have notLoose' : c = '-' → ∀ after, rest' ≠ '\\' :: '\n' :: after := by
    rintro rfl after rfl
    exact noBar' _ List.mem_cons_self (Bar.meets_nil.mpr rfl)
  obtain ⟨notIdent', notNumber', isCut'⟩ := (single_iff plain notSpecial notLoose').mpr noBar'
  rw [List.nil_append, signsAt_short notIdent' notNumber' notSpecial, isCut']
  rfl

theorem recut_shortSign {sign : Sign} (areTidy : ((c :: more) ++ rest).all isTidy)
    (notLoose : NoLooseBackslash rest) (notIdent : startsIdent (c :: (more ++ rest)) = false)
    (notNumber : numberLength? (c :: (more ++ rest)) = none) (notSpecial : isSpecial c = false)
    (isCut : shortSign c (more ++ rest) = ([sign], more.length + 1))
    (notEscape : c ≠ '\\') :
    Recut (c :: more ++ rest) sign rest := by
  have ofLiteral : ∀ (start : List Char) {after : List Char}, c :: (more ++ rest) = start ++ after →
      literalOf (c :: (more ++ rest)) start.length = ([sign], more.length + 1) →
      c :: more = start ∧ sign = .lexeme (.literal start) := fun start after isText isLiteral => by
    obtain ⟨isSign, isLength⟩ := Prod.mk.inj isLiteral
    have whole : (c :: more) ++ rest = start ++ after := isText
    obtain ⟨rfl, -⟩ := List.append_inj whole isLength.symm
    rw [← List.cons_append, List.take_left] at isSign
    exact ⟨rfl, (List.singleton_inj.mp isSign).symm⟩
  have isWhole := isCut
  unfold shortSign at isCut
  simp only at isCut
  split at isCut
  · rename_i after dropped
    have isText : (c :: more) ++ rest = ['/', '*'] ++ after := dropStart?_eq_some_iff.mp dropped
    obtain ⟨isSign, isLength⟩ := Prod.mk.inj isCut
    obtain rfl := List.singleton_inj.mp isSign
    obtain ⟨isTaken, isRest⟩ := taken_eq isText (isLength.symm.trans (Nat.add_comm _ _))
    rw [isTaken] at areTidy ⊢
    refine recut_comment areTidy (congrArg (fun text => (commentAt text).1) ?_)
    rw [isRest]
    exact List.take_append_drop _ _
  · split at isCut
    · rename_i isStart
      obtain ⟨after, dropped⟩ := Option.isSome_iff_exists.mp isStart
      obtain ⟨isTaken, rfl⟩ := ofLiteral _ (dropStart?_eq_some_iff.mp dropped) isCut
      rw [isTaken] at areTidy ⊢
      exact .ofSame areTidy rfl (endsBefore_of_noBars rfl rfl rest) fun rest' _ =>
        ⟨'<', ['!', '-', '-'], rfl, rfl⟩
    split at isCut
    · rename_i isBars
      obtain ⟨after, dropped⟩ := Option.isSome_iff_exists.mp isBars
      obtain ⟨isTaken, rfl⟩ := ofLiteral _ (dropStart?_eq_some_iff.mp dropped) isCut
      rw [isTaken] at areTidy ⊢
      exact .ofSame areTidy rfl (endsBefore_of_noBars rfl rfl rest) fun rest' _ =>
        ⟨'|', ['|'], rfl, rfl⟩
    split at isCut
    · rename_i isMatch
      simp only [Bool.and_eq_true, beq_iff_eq] at isMatch
      obtain ⟨isMark, isEqual⟩ := isMatch
      obtain ⟨after, isAfter⟩ := List.head?_eq_some_iff.mp isEqual
      obtain ⟨isTaken, rfl⟩ := ofLiteral [c, '='] (by rw [isAfter]; rfl) isCut
      rw [isTaken] at areTidy ⊢
      have isMark : c = '~' ∨ c = '|' ∨ c = '^' ∨ c = '$' ∨ c = '*' := by simpa using isMark
      refine .ofSame areTidy rfl (endsBefore_of_noBars rfl rfl rest) fun rest' _ =>
        ⟨c, ['='], rfl, ?_⟩
      rcases isMark with rfl | rfl | rfl | rfl | rfl <;> rfl
    · obtain ⟨isTaken, rfl⟩ := ofLiteral [c] rfl isCut
      obtain rfl := (List.cons.inj isTaken).2
      exact recut_single areTidy notLoose notEscape notIdent notNumber notSpecial isWhole

end ContainerPreview.Css
