import ContainerPreview.Proofs.Css.Recut

/-!
# Cutting names again

The signs that begin with a name or with a mark in front of one are cut again.  An address is
written with a name of its own, in lower case.
-/

namespace ContainerPreview.Css

open Text

variable {c : Char} {more rest : List Char}

/-! ## Identifiers, functions and addresses -/

theorem identSigns_ident {name : List Char} (areInName : name.all isInName)
    (ends : continuesName rest = false) (notParen : rest.head? ≠ some '(') :
    identSigns (name ++ rest) = oneLexeme (.ident name) name.length := by
  simp only [identSigns, nameAt_append areInName ends, List.drop_left]
  split
  · simp at notParen
  · rfl

theorem identSigns_paren {name : List Char} (rest : List Char) (areInName : name.all isInName) :
    identSigns (name ++ '(' :: rest) =
      if lowerAscii name == "url".toList && !startsQuoted rest then
        ((addressLexemes rest).1.map .lexeme, name.length + 1 + (addressLexemes rest).2)
      else ([.opening (.function name)], name.length + 1) := by
  simp only [identSigns, nameAt_append areInName (show continuesName ('(' :: rest) = false from rfl),
    List.drop_left]
  rfl

theorem recut_ident {name : List Char} (areTidy : (name ++ rest).all isTidy)
    (isIdent : IsIdent name) (ends : continuesName rest = false)
    (notLoose : NoLooseBackslash rest) (notParen : rest.head? ≠ some '(')
    (notRange : name = ['u'] ∨ name = ['U'] → ¬(Bar.mk ['+'] isRangeChar).Meets rest)
    (notArrow : name = ['-', '-'] → ¬(Bar.mk [] (· == '>')).Meets rest) :
    Recut (name ++ rest) (.lexeme (.ident name)) rest := by
  have isBars : ∀ text : List Char, (∀ bar ∈ (Sign.lexeme (.ident name)).bars, ¬bar.Meets text) ↔
      text.head? ≠ some '(' ∧ (∀ bar ∈ nameBars, ¬bar.Meets text) ∧
      (name = ['u'] ∨ name = ['U'] → ¬(Bar.mk ['+'] isRangeChar).Meets text) ∧
      (name = ['-', '-'] → ¬(Bar.mk [] (· == '>')).Meets text) := fun text => by
    have isHead : (Bar.mk [] (· == '(')).Meets text ↔ text.head? = some '(' := by
      rw [Bar.meets_nil]
      cases text <;> simp
    rw [Sign.bars, List.forall_mem_append, List.forall_mem_cons, isHead, and_assoc]
    refine and_congr_right fun _ => and_congr_right fun _ => ?_
    split_ifs with letter arrow
    · have isLetter : name = ['u'] ∨ name = ['U'] := by simpa using letter
      have notBoth : name ≠ ['-', '-'] := by
        rcases isLetter with rfl | rfl <;> decide
      simp [isLetter, notBoth]
    · have isArrow : name = ['-', '-'] := by simpa using arrow
      simp [isArrow]
    · simp_all
  refine .ofSame areTidy isIdent.isWritten
    ⟨(isBars rest).mpr ⟨notParen, nameBars_of_not_continuesName ends notLoose, notRange, notArrow⟩,
      fun needs => by cases needs⟩ fun rest' ends' => ?_
  obtain ⟨notParen', noName', notRange', notArrow'⟩ := (isBars rest').mp ends'.noBar
  obtain ⟨c, more, rfl⟩ := List.exists_cons_of_ne_nil isIdent.nonempty
  refine ⟨c, more, rfl, ?_⟩
  rw [isIdent.signsAt rest' notRange' notArrow', ← List.cons_append,
    identSigns_ident isIdent.areInName (continuesName_of_nameBars noName') notParen']
  rfl

theorem recut_function {name : List Char} (areTidy : (name ++ ['('] ++ rest).all isTidy)
    (isIdent : IsIdent name)
    (quoted : lowerAscii name == "url".toList → startsQuoted rest) :
    Recut (name ++ ['('] ++ rest) (.opening (.function name)) rest := by
  refine .ofSame areTidy (by rw [Sign.write, isIdent.isWritten]) ⟨nofun, quoted⟩ fun rest' ends' => ?_
  obtain ⟨c, more, rfl⟩ := List.exists_cons_of_ne_nil isIdent.nonempty
  have noBar : ∀ {mark : Char} {marks : List Char} {last : Char → Bool}, mark ≠ '(' →
      ¬(Bar.mk (mark :: marks) last).Meets ('(' :: rest') := fun notParen meets => by
    obtain ⟨_, same, -⟩ := Bar.meets_cons.mp meets
    exact notParen (List.cons.inj same).1.symm
  have isCut := isIdent.signsAt ('(' :: rest') (fun _ => noBar (by decide)) fun _ meets => by
    rw [Bar.meets_nil] at meets
    cases meets
  refine ⟨c, more ++ ['('], rfl, ?_⟩
  rw [List.append_assoc, List.singleton_append, isCut, ← List.cons_append,
    identSigns_paren rest' isIdent.areInName, if_neg]
  · simp
  · intro unquoted
    simp only [Bool.and_eq_true, Bool.not_eq_true'] at unquoted
    rw [ends'.quoted unquoted.1] at unquoted
    cases unquoted.2

/-- Only letters of ASCII have a lower-case form of their own. -/
theorem toLower_of_not_ascii {c : Char} (notAscii : ¬c.toNat < 128) : c.toLower = c := by
  unfold Char.toLower
  split
  · rename_i isUpper
    rw [ge_iff_le, UInt32.le_iff_toNat_le, UInt32.le_iff_toNat_le] at isUpper
    exact absurd (Nat.lt_of_le_of_lt isUpper.2 (by decide)) notAscii
  · rfl

theorem isLeadLetter_of_toLower {c : Char} (isLetter : c.toLower = 'u') : isLeadLetter c := by
  by_cases ascii : c.toNat < 128
  · exact forall_ascii (fun c => c.toLower = 'u' → isLeadLetter c) (by decide) ascii isLetter
  · rw [toLower_of_not_ascii ascii] at isLetter
    subst isLetter
    rfl

theorem not_startsQuoted_address {value : List Char} (areChars : value.all isAddressChar) :
    startsQuoted (value ++ ')' :: rest) = false := by
  cases value with
  | nil => rfl
  | cons c value =>
      rw [List.all_cons, Bool.and_eq_true] at areChars
      have isChar := areChars.1
      have noGap : isGap c = false := by
        simp only [isAddressChar, Bool.and_eq_true, Bool.not_eq_true'] at isChar
        exact isChar.1.1.2
      have noQuote : c ≠ '"' ∧ c ≠ '\'' := by
        constructor <;> (rintro rfl; cases isChar)
      rw [startsQuoted, List.cons_append, gapLength_eq_zero noGap]
      simp [noQuote]

theorem isIdent_url : IsIdent ['u', 'r', 'l'] where
  areInName := rfl
  isWritten := rfl
  nonempty := List.cons_ne_nil _ _

theorem recut_address {name inner value : List Char}
    (areTidy : (name ++ '(' :: inner ++ rest).all isTidy)
    (isUrl : lowerAscii name = "url".toList)
    (isAddress : addressLexemes (inner ++ rest) = ([.address value true], inner.length))
    (noEscape : '\\' ∉ inner) :
    Recut (name ++ '(' :: inner ++ rest) (.lexeme (.address value true)) rest := by
  have isValue : ∀ c ∈ value, isAddressChar c ∧ c ∈ inner ++ rest := by
    obtain ⟨value', same, areChars⟩ := exists_address (inner ++ rest) (by simp [isAddress])
    rw [isAddress, List.take_left] at areChars
    rw [isAddress] at same
    obtain rfl : value = value' := by simpa using same
    exact areChars noEscape
  have areChars : value.all isAddressChar := List.all_eq_true.mpr fun c member => (isValue c member).1
  have valueTidy : value.all isTidy := by
    rw [List.append_assoc, List.all_append, List.cons_append, List.all_cons, Bool.and_eq_true,
      Bool.and_eq_true] at areTidy
    exact List.all_eq_true.mpr fun c member =>
      List.all_eq_true.mp areTidy.2.2 c (isValue c member).2
  have isText : (Sign.lexeme (.address value true)).write =
      'u' :: ("rl(".toList ++ value ++ [')']) := by
    rw [Sign.write, writeLexeme, flatMap_writeAddressChar areChars valueTidy]
    simp
  refine ⟨endsBefore_of_noBars rfl rfl rest, fun rest' _ => ?_, fun new _ => ?_, ?_,
    fun verbatim => by cases verbatim⟩
  · refine ⟨'u', _, isText, ?_⟩
    have isCut := isIdent_url.signsAt ('(' :: (value ++ ')' :: rest')) (by simp) (by simp)
    have isParen := identSigns_paren (value ++ ')' :: rest') isIdent_url.areInName
    rw [not_startsQuoted_address areChars, addressLexemes_append areChars,
      if_pos (show lowerAscii ['u', 'r', 'l'] == "url".toList && !false from rfl)] at isParen
    have isLength : 4 + (value.length + 1) = value.length + 1 + 1 + 1 + 1 + 1 := by omega
    rw [isText]
    simpa [isLength] using isCut.trans isParen
  · obtain ⟨c, name, rfl⟩ : ∃ c more, name = c :: more := by
      cases name with
      | nil => cases isUrl
      | cons c more => exact ⟨c, more, rfl⟩
    rw [isText]
    exact .letter rfl (isLeadLetter_of_toLower (List.cons.inj isUrl).1)
  · rw [isText]
    simp [valueTidy, show isTidy 'u' from rfl, show isTidy ')' from rfl]
    decide

theorem nameAt_le_identSigns (text : List Char) : (nameAt text).2 ≤ (identSigns text).2 := by
  simp only [identSigns]
  split
  · split
    · exact Nat.le_trans (Nat.le_succ _) (Nat.le_add_right _ _)
    · exact Nat.le_succ _
  · exact Nat.le_refl _

/-- No range of code points and no end of a comment begins where a name does. -/
theorem not_opens {name : List Char} (isIdent : IsIdent name) (isText : c :: more = name ++ rest)
    (notRange : opensRange c more = false) (notArrow : opensArrow c more = false) :
    (name = ['u'] ∨ name = ['U'] → ¬(Bar.mk ['+'] isRangeChar).Meets rest) ∧
      (name = ['-', '-'] → ¬(Bar.mk [] (· == '>')).Meets rest) := by
  constructor
  · intro isLetter meets
    obtain ⟨after, rfl, isNext⟩ := Bar.meets_cons.mp meets
    rw [Bar.meets_nil] at isNext
    refine Bool.eq_false_iff.mp notRange ?_
    rcases isLetter with rfl | rfl
    all_goals
      obtain ⟨rfl, rfl⟩ := List.cons.inj isText
      simp [opensRange, isNext]
  · rintro rfl meets
    rw [Bar.meets_nil] at meets
    refine Bool.eq_false_iff.mp notArrow ?_
    cases rest with
    | nil => cases meets
    | cons d rest =>
        obtain rfl : d = '>' := by simpa using meets
        obtain ⟨rfl, rfl⟩ := List.cons.inj isText
        rfl

theorem recut_identSigns {sign : Sign} (areTidy : ((c :: more) ++ rest).all isTidy)
    (notLoose : NoLooseBackslash rest) (notRange : opensRange c (more ++ rest) = false)
    (notArrow : opensArrow c (more ++ rest) = false) (starts : startsIdent (c :: (more ++ rest)))
    (isCut : identSigns (c :: (more ++ rest)) = ([sign], more.length + 1))
    (noEscape : '\\' ∉ c :: more) (flawless : ∀ flaw, sign ≠ .lexeme (.flaw flaw)) :
    Recut (c :: more ++ rest) sign rest := by
  have atMost : (nameAt (c :: (more ++ rest))).2 ≤ (c :: more).length := by
    have atMost := nameAt_le_identSigns (c :: (more ++ rest))
    rwa [isCut] at atMost
  have inside : '\\' ∉ (c :: (more ++ rest)).take (nameAt (c :: (more ++ rest))).2 := fun member => by
    rw [← List.cons_append] at member atMost
    rw [List.take_append_of_le_length atMost] at member
    exact noEscape (List.mem_of_mem_take member)
  obtain ⟨name, after, isText, areInName, ends, -⟩ := exists_name inside
  rw [isText] at starts isCut
  have isIdent := isIdent_of_startsIdent areInName ends starts
  obtain ⟨noRange, noArrow⟩ := not_opens isIdent isText notRange notArrow
  rw [← List.cons_append] at isText
  by_cases paren : after.head? = some '('
  · obtain ⟨after, rfl⟩ : ∃ more, after = '(' :: more := by
      cases after with
      | nil => cases paren
      | cons d after => exact ⟨after, by rw [Option.some.inj paren]⟩
    rw [identSigns_paren after areInName] at isCut
    split at isCut
    · rename_i isUrl
      rw [Bool.and_eq_true, beq_iff_eq] at isUrl
      obtain ⟨isSign, isLength⟩ := Prod.mk.inj isCut
      obtain ⟨content, isLexeme, rfl⟩ := List.map_eq_singleton_iff.mp isSign
      obtain ⟨value, isAddress, -⟩ := exists_address after (by
        rw [isLexeme]
        intro flaw member
        exact flawless flaw (congrArg Sign.lexeme (List.mem_singleton.mp member).symm))
      obtain rfl : content = .address value true := by simpa using isLexeme.symm.trans isAddress
      have whole : (c :: more) ++ rest = (name ++ ['(']) ++ after := by simpa using isText
      obtain ⟨isTaken, isRest⟩ := taken_eq whole (by simpa using isLength.symm)
      rw [List.append_assoc, List.singleton_append] at isTaken
      have isInner : after.take (addressLexemes after).2 ++ rest = after := by
        rw [isRest, List.take_append_drop]
      have sameLength : (after.take (addressLexemes after).2).length = (addressLexemes after).2 := by
        have sameLength := congrArg List.length isTaken
        simp only [List.length_append, List.length_cons] at sameLength
        omega
      rw [isTaken] at areTidy noEscape ⊢
      refine recut_address areTidy isUrl.1 ?_ fun member =>
        noEscape (List.mem_append_right _ (List.mem_cons_of_mem _ member))
      rw [isInner, sameLength]
      exact Prod.ext isAddress rfl
    · obtain ⟨isSign, isLength⟩ := Prod.mk.inj isCut
      obtain rfl : .opening (.function name) = sign := by simpa using isSign
      have whole : (c :: more) ++ rest = (name ++ ['(']) ++ after := by simpa using isText
      obtain ⟨isTaken, rfl⟩ := List.append_inj whole (by simpa using isLength.symm)
      rename_i unquoted
      rw [isTaken] at areTidy ⊢
      refine recut_function areTidy isIdent fun isUrl => ?_
      rw [isUrl, Bool.true_and, Bool.not_eq_true', Bool.not_eq_false] at unquoted
      exact unquoted
  · rw [identSigns_ident areInName ends paren] at isCut
    obtain ⟨isSign, isLength⟩ := Prod.mk.inj isCut
    obtain rfl : .lexeme (.ident name) = sign := by simpa using isSign
    obtain ⟨rfl, rfl⟩ := List.append_inj isText isLength.symm
    exact recut_ident areTidy isIdent ends notLoose paren noRange noArrow

/-! ## Marks -/

theorem recut_atKeyword {name : List Char} (areTidy : ('@' :: name ++ rest).all isTidy)
    (notLoose : NoLooseBackslash rest) (isIdent : IsIdent name) (ends : continuesName rest = false) :
    Recut ('@' :: name ++ rest) (.lexeme (.atKeyword name)) rest := by
  refine .ofSame areTidy (congrArg ('@' :: ·) isIdent.isWritten)
    ⟨nameBars_of_not_continuesName ends notLoose, nofun⟩ fun rest' ends' => ⟨'@', name, rfl, ?_⟩
  rw [signsAt_marked (.inl rfl), markedName,
    nameAt_append isIdent.areInName (continuesName_of_nameBars ends'.noBar), isIdent.startsIdent]
  rfl

theorem startsIdent_congr {name rest' : List Char} (areInName : name.all isInName)
    (nonempty : name ≠ []) (ends : continuesName rest = false) (ends' : continuesName rest' = false) :
    startsIdent (name ++ rest) = startsIdent (name ++ rest') := by
  obtain ⟨c, more, rfl⟩ := List.exists_cons_of_ne_nil nonempty
  simp only [List.all_cons, Bool.and_eq_true] at areInName
  by_cases hyphen : c = '-'
  · subst hyphen
    cases more with
    | nil =>
        simp only [continuesName, Bool.or_eq_false_iff] at ends ends'
        have noHead : ∀ {text : List Char}, text.head?.any isInName = false →
            text.head?.any (fun c => startsName c || c == '-') = false := fun {text} notInName => by
          cases text with
          | nil => rfl
          | cons d text => simp_all [isInName]
        rw [List.singleton_append, List.singleton_append, startsIdent, startsIdent, ends.2, ends'.2,
          noHead ends.1, noHead ends'.1]
    | cons d more =>
        rw [List.all_cons, Bool.and_eq_true] at areInName
        simp [startsIdent, not_startsEscape_of_isInName areInName.2.1]
  · rw [List.cons_append, List.cons_append, startsIdent_cons hyphen, startsIdent_cons hyphen,
      not_startsEscape_of_isInName areInName.1, not_startsEscape_of_isInName areInName.1]

theorem recut_hash {name : List Char} (areTidy : ('#' :: name ++ rest).all isTidy)
    (notLoose : NoLooseBackslash rest) (areInName : name.all isInName) (nonempty : name ≠ [])
    (ends : continuesName rest = false) :
    Recut ('#' :: name ++ rest) (.lexeme (.hash name (startsIdent (name ++ rest)))) rest := by
  refine .ofSame areTidy ?_ ⟨nameBars_of_not_continuesName ends notLoose, nofun⟩
    fun rest' ends' => ⟨'#', name, rfl, ?_⟩
  · rw [Sign.write, writeLexeme]
    split
    · rename_i starts
      rw [writeIdent_of_startsIdent areInName ends starts]
    · rw [writeName_of_all areInName]
  · have endsName := continuesName_of_nameBars ends'.noBar
    have goesOn : continuesName (name ++ rest') := by
      obtain ⟨c, more, rfl⟩ := List.exists_cons_of_ne_nil nonempty
      rw [List.all_cons, Bool.and_eq_true] at areInName
      exact continuesName_of_isInName areInName.1 (more ++ rest')
    rw [signsAt_marked (.inr rfl), markedName, nameAt_append areInName endsName,
      startsIdent_congr areInName nonempty endsName ends]
    exact if_pos goesOn

theorem recut_at (areTidy : (['@'] ++ rest).all isTidy) (notLoose : NoLooseBackslash rest)
    (notIdent : startsIdent rest = false) : Recut (['@'] ++ rest) (.lexeme (.literal ['@'])) rest := by
  refine .ofSame areTidy rfl ⟨identBars_of_not_startsIdent notIdent notLoose, nofun⟩
    fun rest' ends' => ⟨'@', [], rfl, ?_⟩
  have notIdent' := startsIdent_of_identBars (show ∀ bar ∈ identBars, _ from ends'.noBar)
  rw [signsAt_marked (.inl rfl), markedName, List.nil_append, notIdent']
  rfl

theorem recut_number_sign (areTidy : (['#'] ++ rest).all isTidy) (notLoose : NoLooseBackslash rest)
    (notName : continuesName rest = false) : Recut (['#'] ++ rest) (.lexeme (.literal ['#'])) rest := by
  refine .ofSame areTidy rfl ⟨nameBars_of_not_continuesName notName notLoose, nofun⟩
    fun rest' ends' => ⟨'#', [], rfl, ?_⟩
  have notName' := continuesName_of_nameBars (show ∀ bar ∈ nameBars, _ from ends'.noBar)
  rw [continuesName, Bool.or_eq_false_iff] at notName'
  rw [signsAt_marked (.inr rfl), markedName, List.nil_append, notName'.1, notName'.2]
  rfl

theorem recut_markedName {sign : Sign} (areTidy : ((c :: more) ++ rest).all isTidy)
    (notLoose : NoLooseBackslash rest) (isMark : c = '@' ∨ c = '#')
    (isCut : markedName c (more ++ rest) = ([sign], more.length + 1))
    (noEscape : '\\' ∉ c :: more) : Recut (c :: more ++ rest) sign rest := by
  have noEscape : '\\' ∉ more := fun member => noEscape (List.mem_cons_of_mem c member)
  have ofName : more.length + 1 = (nameAt (more ++ rest)).2 + 1 →
      more.all isInName ∧ continuesName rest = false ∧ (nameAt (more ++ rest)).1 = more := by
    intro isLength
    have inside : '\\' ∉ (more ++ rest).take (nameAt (more ++ rest)).2 := by
      rwa [← Nat.succ.inj isLength, List.take_left]
    obtain ⟨name, after, isText, areInName, ends, isName⟩ := exists_name inside
    rw [isName] at isLength
    obtain ⟨rfl, rfl⟩ := List.append_inj isText (Nat.succ.inj isLength)
    exact ⟨areInName, ends, by rw [isName]⟩
  simp only [markedName] at isCut
  rcases isMark with rfl | rfl
  · rw [if_pos (by decide)] at isCut
    split at isCut
    · rename_i starts
      obtain ⟨isSign, isLength⟩ := Prod.mk.inj isCut
      obtain ⟨areInName, ends, isName⟩ := ofName isLength.symm
      rw [isName] at isSign
      obtain rfl := List.singleton_inj.mp isSign
      exact recut_atKeyword areTidy notLoose (isIdent_of_startsIdent areInName ends starts) ends
    · rename_i notIdent
      obtain ⟨isSign, isLength⟩ := Prod.mk.inj isCut
      obtain rfl := List.singleton_inj.mp isSign
      obtain rfl := List.length_eq_zero_iff.mp (Nat.succ.inj isLength).symm
      exact recut_at areTidy notLoose (Bool.eq_false_iff.mpr notIdent)
  · rw [if_neg (by decide)] at isCut
    split at isCut
    · rename_i goesOn
      obtain ⟨isSign, isLength⟩ := Prod.mk.inj isCut
      obtain ⟨areInName, ends, isName⟩ := ofName isLength.symm
      rw [isName] at isSign
      obtain rfl := List.singleton_inj.mp isSign
      refine recut_hash areTidy notLoose areInName ?_ ends
      rintro rfl
      rw [List.nil_append] at goesOn
      exact Bool.eq_false_iff.mp ends goesOn
    · rename_i notName
      obtain ⟨isSign, isLength⟩ := Prod.mk.inj isCut
      obtain rfl := List.singleton_inj.mp isSign
      obtain rfl := List.length_eq_zero_iff.mp (Nat.succ.inj isLength).symm
      exact recut_number_sign areTidy notLoose (Bool.eq_false_iff.mpr notName)

end ContainerPreview.Css
