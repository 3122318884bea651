import ContainerPreview.Proofs.Css.Recut

/-!
# Cutting numbers again

A number, a percentage and a dimension are cut again.  The unit of a dimension must not look like
an exponent, which is why its text is asked to stand for itself.
-/

namespace ContainerPreview.Css

open Text

variable {c : Char} {more rest : List Char}

theorem noExponent_of_numberLength? {number : List Char}
    (isNumber : numberLength? (number ++ rest) = some number.length)
    (noMark : number.any isExponentMark = false) : exponentLength rest = 0 := by
  obtain ⟨parts, rfl, ends⟩ := exists_ends isNumber
  refine ends.noExponent (parts.isExponent.resolve_right ?_)
  rintro ⟨e, sign, digits, isText, isE, -⟩
  have isMark : isExponentMark e := by rcases isE with rfl | rfl <;> rfl
  simp [NumberParts.text, isText, isMark] at noMark

theorem signsAt_of_number {number : List Char}
    (isNumber : numberLength? (number ++ rest) = some number.length) :
    ∃ c more, number = c :: more ∧
      signsAt c (more ++ rest) = numberSign (number ++ rest) number.length := by
  obtain ⟨c, more, rfl⟩ := List.exists_cons_of_ne_nil (number_ne_nil isNumber)
  exact ⟨c, more, rfl, signsAt_number isNumber⟩

theorem numberSign_append (number rest : List Char) :
    numberSign (number ++ rest) number.length =
      if startsIdent rest then
        oneLexeme (.dimension number (nameAt rest).1) (number.length + (nameAt rest).2)
      else if rest.head? == some '%' then oneLexeme (.percentage number) (number.length + 1)
      else oneLexeme (.number number) number.length := by
  simp only [numberSign, List.take_left, List.drop_left]

theorem exponentLength_of_not_startsIdent (noIdent : startsIdent rest = false) :
    exponentLength rest = 0 := by
  cases rest with
  | nil => rfl
  | cons c rest =>
      have notMark : (c == 'e' || c == 'E') = false := by
        refine Bool.eq_false_iff.mpr fun isMark => ?_
        simp only [Bool.or_eq_true, beq_iff_eq] at isMark
        rcases isMark with rfl | rfl <;> cases noIdent
      rw [exponentLength_cons, notMark]
      rfl

theorem recut_number {number : List Char} (areTidy : (number ++ rest).all isTidy)
    (notLoose : NoLooseBackslash rest)
    (isNumber : numberLength? (number ++ rest) = some number.length)
    (notIdent : startsIdent rest = false) (notPercent : rest.head? ≠ some '%') :
    Recut (number ++ rest) (.lexeme (.number number)) rest := by
  have isBars : ∀ text : List Char, (∀ bar ∈ (Sign.lexeme (.number number)).bars, ¬bar.Meets text) ↔
      ((∀ c ∈ text.head?, c.isDigit = false) ∧ text.head? ≠ some '%') ∧
      (∀ bar ∈ identBars, ¬bar.Meets text) ∧
      (number.all isWholeChar → ∀ after, text = '.' :: after → ∀ c ∈ after.head?,
        c.isDigit = false) := fun text => by
    have isHead : (¬(Bar.mk [] fun c => c.isDigit || c == '%').Meets text) ↔
        (∀ c ∈ text.head?, c.isDigit = false) ∧ text.head? ≠ some '%' := by
      rw [Bar.meets_nil]
      cases text <;> simp
    have isPoint : (¬(Bar.mk ['.'] Char.isDigit).Meets text) ↔
        ∀ after, text = '.' :: after → ∀ c ∈ after.head?, c.isDigit = false := by
      simp only [Bar.meets_cons, Bar.meets_nil, not_exists, not_and]
      refine forall_congr' fun after => imp_congr_right fun _ => ?_
      cases after <;> simp
    rw [Sign.bars, List.forall_mem_append, List.forall_mem_cons, isHead, and_assoc]
    refine and_congr_right fun _ => and_congr_right fun _ => ?_
    split_ifs with whole
    · simp [whole, isPoint]
    · simp [whole]
  obtain ⟨noDigit, noFraction⟩ := noDigit_of_numberLength? isNumber
  refine .ofSame areTidy rfl ⟨(isBars rest).mpr ⟨⟨noDigit, notPercent⟩,
    identBars_of_not_startsIdent notIdent notLoose, noFraction⟩, fun needs => by cases needs⟩
    fun rest' ends' => ?_
  obtain ⟨⟨noDigit', notPercent'⟩, noIdent', noFraction'⟩ := (isBars rest').mp ends'.noBar
  have notIdent' := startsIdent_of_identBars noIdent'
  have isNumber' := numberLength?_congr rest' isNumber noDigit' noFraction' fun _ =>
    exponentLength_of_not_startsIdent notIdent'
  obtain ⟨c, more, rfl, isCut⟩ := signsAt_of_number isNumber'
  refine ⟨c, more, rfl, isCut.trans ?_⟩
  rw [numberSign_append, notIdent', if_neg (by simp), if_neg (by simpa using notPercent')]
  rfl

theorem recut_percentage {number : List Char} (areTidy : (number ++ ['%'] ++ rest).all isTidy)
    (isNumber : numberLength? (number ++ '%' :: rest) = some number.length) :
    Recut (number ++ ['%'] ++ rest) (.lexeme (.percentage number)) rest := by
  refine .ofSame areTidy rfl (endsBefore_of_noBars rfl rfl rest) fun rest' _ => ?_
  have isNumber' := numberLength?_congr ('%' :: rest') isNumber
    (by rintro _ ⟨⟩; rfl) (by simp) fun _ => rfl
  obtain ⟨c, more, rfl, isCut⟩ := signsAt_of_number isNumber'
  refine ⟨c, more ++ ['%'], rfl, ?_⟩
  rw [List.append_assoc, List.singleton_append, isCut, numberSign_append]
  simp [show startsIdent ('%' :: rest') = false from rfl, oneLexeme]

/-- A unit that is written as it is goes on with no exponent if the number did not. -/
theorem exponentLength_unit {unit rest' : List Char} (isIdent : IsIdent unit)
    (isUnit : writeUnit unit = unit) (noExponent : exponentLength (unit ++ rest) = 0) :
    exponentLength (unit ++ rest') = 0 := by
  obtain ⟨c, more, rfl⟩ := List.exists_cons_of_ne_nil isIdent.nonempty
  rw [List.cons_append, exponentLength_cons] at noExponent ⊢
  cases isMark : c == 'e' || c == 'E' with
  | false => rfl
  | true =>
      have areInName := isIdent.areInName
      cases more with
      | nil =>
          rw [writeUnit, isMark] at isUnit
          cases isUnit
      | cons d more =>
          have notHyphen : d ≠ '-' := by
            rintro rfl
            rw [writeUnit, isMark] at isUnit
            cases isUnit
          have notPlus : d ≠ '+' := by
            rintro rfl
            simp [show isInName '+' = false from rfl] at areInName
          have unsigned : ∀ text, startsWithSign (d :: text) = false := fun text => by
            simp [startsWithSign, notHyphen, notPlus]
          rw [isMark, List.cons_append, unsigned] at noExponent
          rw [List.cons_append, unsigned]
          cases digit : d.isDigit with
          | true => simp [digitCount, digit] at noExponent
          | false => simp [digitCount, digit]

theorem recut_dimension {number unit : List Char} (areTidy : (number ++ unit ++ rest).all isTidy)
    (notLoose : NoLooseBackslash rest) (isIdent : IsIdent unit) (ends : continuesName rest = false)
    (isUnit : writeUnit unit = unit)
    (isNumber : numberLength? (number ++ (unit ++ rest)) = some number.length) :
    Recut (number ++ unit ++ rest) (.lexeme (.dimension number unit)) rest := by
  refine .ofSame areTidy (congrArg (number ++ ·) isUnit)
    ⟨nameBars_of_not_continuesName ends notLoose, nofun⟩ fun rest' ends' => ?_
  obtain ⟨d, others, rfl⟩ := List.exists_cons_of_ne_nil isIdent.nonempty
  have areInName := isIdent.areInName
  rw [List.all_cons, Bool.and_eq_true] at areInName
  have isNumber' := numberLength?_congr (d :: others ++ rest') isNumber
    (noDigit_of_numberLength? isNumber).1
    (fun _ after same => by
      obtain rfl : d = '.' := (List.cons.inj same).1
      cases areInName.1)
    fun noMark => exponentLength_unit isIdent isUnit (noExponent_of_numberLength? isNumber noMark)
  obtain ⟨c, more, rfl, isCut⟩ := signsAt_of_number isNumber'
  refine ⟨c, more ++ d :: others, rfl, ?_⟩
  rw [List.append_assoc, isCut, numberSign_append, isIdent.startsIdent,
    nameAt_append isIdent.areInName (continuesName_of_nameBars ends'.noBar), oneLexeme]
  simp
  omega

theorem recut_numberSign {sign : Sign} {length : Nat} (areTidy : ((c :: more) ++ rest).all isTidy)
    (notLoose : NoLooseBackslash rest)
    (isNumber : numberLength? ((c :: more) ++ rest) = some length)
    (isCut : numberSign ((c :: more) ++ rest) length = ([sign], more.length + 1))
    (noEscape : '\\' ∉ c :: more)
    (isUnit : ∀ number unit, sign = .lexeme (.dimension number unit) → writeUnit unit = unit) :
    Recut (c :: more ++ rest) sign rest := by
  obtain ⟨parts, after, isText, -, isLength⟩ := exists_numberParts isNumber
  generalize parts.text = number at isText isLength
  subst isLength
  rw [isText] at isNumber isCut
  rw [numberSign_append] at isCut
  split at isCut
  · rename_i starts
    obtain ⟨isSign, isLength⟩ := Prod.mk.inj isCut
    obtain rfl := List.singleton_inj.mp isSign
    obtain ⟨isTaken, isRest⟩ := taken_eq isText isLength.symm
    have inside : '\\' ∉ after.take (nameAt after).2 := fun member =>
      noEscape (isTaken ▸ List.mem_append_right _ member)
    obtain ⟨unit, others, rfl, areInName, ends, isName⟩ := exists_name inside
    rw [isName, List.take_left] at isTaken
    rw [isName, List.drop_left] at isRest
    subst isRest
    rw [isTaken] at areTidy ⊢
    rw [isName] at isUnit ⊢
    exact recut_dimension areTidy notLoose (isIdent_of_startsIdent areInName ends starts) ends
      (isUnit number unit rfl) isNumber
  · rename_i notIdent
    split at isCut
    · rename_i isPercent
      obtain ⟨isSign, isLength⟩ := Prod.mk.inj isCut
      obtain rfl := List.singleton_inj.mp isSign
      obtain ⟨after, rfl⟩ : ∃ more, after = '%' :: more := by
        cases after with
        | nil => cases isPercent
        | cons d after => exact ⟨after, by simpa using isPercent⟩
      obtain ⟨isTaken, rfl⟩ := taken_eq isText isLength.symm
      rw [List.take_succ_cons, List.take_zero] at isTaken
      rw [isTaken] at areTidy ⊢
      exact recut_percentage areTidy isNumber
    · rename_i notPercent
      obtain ⟨isSign, isLength⟩ := Prod.mk.inj isCut
      obtain rfl := List.singleton_inj.mp isSign
      obtain ⟨rfl, rfl⟩ := List.append_inj isText isLength.symm
      exact recut_number areTidy notLoose isNumber (Bool.eq_false_iff.mpr notIdent)
        (by simpa using notPercent)

end ContainerPreview.Css
