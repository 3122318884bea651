import ContainerPreview.Proofs.Css.RecutName
import ContainerPreview.Proofs.Css.RecutNumber
import ContainerPreview.Proofs.Css.RecutShort

/-!
# Cutting calm signs again

Whatever kind of sign has been cut, it is cut again if it is calm.
-/

namespace ContainerPreview.Css

open Text

theorem Sign.noEscape_of_isCalm {sign : Sign} {taken rest : List Char}
    (calm : sign.isCalm taken rest) (notExempt : sign.isExempt = false) : '\\' ∉ taken := by
  have ofCalm : taken.all isCalmChar → '\\' ∉ taken := fun areCalm member => by
    cases List.all_eq_true.mp areCalm _ member
  unfold isCalm at calm
  split at calm
  · cases notExempt
  · cases notExempt
  · cases notExempt
  · intro member
    rw [Bool.and_eq_true] at calm
    cases List.all_eq_true.mp calm.2 _ member
  · rw [Bool.and_eq_true] at calm
    exact ofCalm calm.1
  · cases notExempt
  · cases calm
  · exact ofCalm calm

/-- A calm sign that has been cut is cut again. -/
theorem recut_of_cuts {taken rest : List Char} {sign : Sign} (areTidy : (taken ++ rest).all isTidy)
    (notLoose : NoLooseBackslash rest) (cut : Cuts taken sign rest) (calm : sign.isCalm taken rest) :
    Recut (taken ++ rest) sign rest := by
  obtain ⟨c, more, rfl, isCut⟩ := cut
  have noEscape : ∀ {signs : List Sign × Nat},
      (∀ sign ∈ signs.1, sign.isOrdinary) → ([sign], more.length + 1) = signs →
        '\\' ∉ c :: more := fun ordinary isSigns =>
    Sign.noEscape_of_isCalm calm (Sign.notExempt_of_isOrdinary
      (ordinary sign (by rw [← isSigns]; exact List.mem_singleton_self _)))
  have kind := cutCase c (more ++ rest)
  rw [isCut] at kind
  rw [List.length_cons] at kind
  generalize isResult : ([sign], more.length + 1) = result at kind
  cases kind with
  | blank gap =>
      obtain ⟨isSign, isLength⟩ := Prod.mk.inj isResult
      obtain rfl := List.singleton_inj.mp isSign
      rw [← isLength, ← List.cons_append, ← List.length_cons, List.take_left]
      exact recut_blank areTidy gap isLength.symm
  | range range =>
      obtain ⟨isSign, isLength⟩ := Prod.mk.inj isResult
      obtain rfl := List.singleton_inj.mp isSign
      exact recut_range _ _ range rfl rfl (by simpa [Sign.isCalm] using calm)
  | arrow arrow =>
      obtain ⟨isSign, isLength⟩ := Prod.mk.inj isResult
      obtain rfl := List.singleton_inj.mp isSign
      rw [← isLength, ← List.cons_append, ← List.length_cons, List.take_left]
      exact recut_arrow areTidy arrow isLength
  | ident notRange notArrow starts =>
      refine recut_identSigns areTidy notLoose notRange notArrow starts isResult.symm
        (noEscape (isOrdinary_identSigns _) isResult) ?_
      rintro flaw rfl
      cases calm
  | number length isNumber =>
      refine recut_numberSign areTidy notLoose isNumber isResult.symm
        (noEscape (isOrdinary_numberSign _ _) isResult) ?_
      rintro number unit rfl
      simp only [Sign.isCalm, Bool.and_eq_true, beq_iff_eq] at calm
      exact calm.2
  | marked isMark =>
      exact recut_markedName areTidy notLoose isMark isResult.symm
        (noEscape (isOrdinary_markedName _ _) isResult)
  | opening opener isBracket =>
      obtain ⟨isSign, isLength⟩ := Prod.mk.inj isResult
      obtain rfl := List.singleton_inj.mp isSign
      obtain rfl := List.length_eq_zero_iff.mp (Nat.succ.inj isLength)
      exact recut_opening areTidy isBracket
  | closing isCloser =>
      obtain ⟨isSign, isLength⟩ := Prod.mk.inj isResult
      obtain rfl := List.singleton_inj.mp isSign
      obtain rfl := List.length_eq_zero_iff.mp (Nat.succ.inj isLength)
      exact recut_closing areTidy isCloser
  | string isQuote =>
      rw [stringSigns] at isResult
      cases isString : stringAt c (more ++ rest) with
      | mk value tail =>
      obtain ⟨length, stop⟩ := tail
      rw [isString] at isResult
      cases stop with
      | closed =>
          obtain rfl := List.singleton_inj.mp (Prod.mk.inj isResult).1
          exact recut_string areTidy (by rw [isString])
      | openEnd => cases (Prod.mk.inj isResult).1
      | broken =>
          obtain rfl := List.singleton_inj.mp (Prod.mk.inj isResult).1
          cases calm
  | short notIdent notNumber notSpecial =>
      refine recut_shortSign areTidy notLoose notIdent notNumber notSpecial isResult.symm ?_
      rintro rfl
      refine noEscape (fun sign member => ?_) isResult List.mem_cons_self
      exact (isOrdinary_shortSign _ _ sign member).resolve_right fun isComment =>
        absurd isComment.1 (by decide)

end ContainerPreview.Css
