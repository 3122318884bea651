import ContainerPreview.Proofs.Text.Split

/-!
# Closed texts

A text is closed if the scan over it comes back to its start and meets no closer that no group
waits for.  Closed texts in a row are closed, and what follows a balanced start of a closed
text is closed itself.
-/

namespace ContainerPreview.Text

namespace Scan

/-- The character closes a group, and the innermost open group does not wait for it. -/
def strays (scan : Scan) (c : Char) : Bool :=
  scan.isPlain && (c == ')' || c == ']') && scan.closers.head? != some c

/-- The scan meets no closer that no group waits for. -/
def meetsNoStray : Scan → List Char → Bool
  | _, [] => true
  | scan, c :: text => !scan.strays c && meetsNoStray (scan.step c) text

theorem meetsNoStray_append (scan : Scan) (left right : List Char) :
    scan.meetsNoStray (left ++ right) =
      (scan.meetsNoStray left && (scan.after left).meetsNoStray right) := by
  induction left generalizing scan with
  | nil => rfl
  | cons c left inductionHypothesis => simp [meetsNoStray, inductionHypothesis, Bool.and_assoc]

theorem strays_of_not_counts (scan : Scan) {c : Char} (idle : counts c = false) :
    scan.strays c = false := by
  obtain ⟨-, notClosing, -, notBracket, -⟩ := ne_of_not_counts idle
  simp [strays, notClosing, notBracket]

end Scan

instance (text : List Char) : Decidable (Balanced text) :=
  inferInstanceAs (Decidable (_ = _))

/-- A text closes all groups and quotes that it opens, each with a closer of its own, and no
others. -/
def Closed (text : List Char) : Prop :=
  Balanced text ∧ Scan.start.meetsNoStray text

instance (text : List Char) : Decidable (Closed text) :=
  inferInstanceAs (Decidable (_ ∧ _))

variable {left right text : List Char}

theorem isWhole_blanks {blanks : List Char} (areBlank : ∀ c ∈ blanks, isBlank c) :
    isWhole ',' blanks := by
  induction blanks with
  | nil => rfl
  | cons c blanks inductionHypothesis =>
      obtain ⟨blank, areBlank⟩ := List.forall_mem_cons.mp areBlank
      have isHere : Balanced [c] := Scan.after_blanks (List.forall_mem_singleton.mpr blank)
      have notComma : c ≠ ',' := by
        rintro rfl
        cases blank
      rw [← List.singleton_append, isWhole_append isHere, inductionHypothesis areBlank]
      simp [isWhole, Scan.passes, Scan.splitsAt, notComma]

namespace Closed

theorem append (isLeft : Closed left) (isRight : Closed right) : Closed (left ++ right) := by
  refine ⟨isLeft.1.append isRight.1, ?_⟩
  rw [Scan.meetsNoStray_append, isLeft.1, isLeft.2, isRight.2]
  rfl

/-- What follows a balanced start of a closed text is closed. -/
theorem of_append (isLeft : Balanced left) (closed : Closed (left ++ right)) : Closed right := by
  obtain ⟨balanced, noStray⟩ := closed
  rw [Balanced, Scan.after_append, isLeft] at balanced
  rw [Scan.meetsNoStray_append, isLeft, Bool.and_eq_true] at noStray
  exact ⟨balanced, noStray.2⟩

theorem blanks (areBlank : ∀ c ∈ text, isBlank c) : Closed text := by
  refine ⟨Scan.after_blanks areBlank, ?_⟩
  induction text with
  | nil => rfl
  | cons c text inductionHypothesis =>
      obtain ⟨blank, areBlank⟩ := List.forall_mem_cons.mp areBlank
      rw [Scan.meetsNoStray, Scan.strays_of_not_counts _ (Scan.counts_of_isBlank blank),
        Scan.step_of_isBlank Scan.sound_start rfl blank, inductionHypothesis areBlank]
      rfl

theorem trim (closed : Closed text) : Closed (trim text) := by
  refine ⟨balanced_trim closed.1, ?_⟩
  obtain ⟨left, right, same, leftBlank, -⟩ := exists_append_trim text
  have noStray := closed.2
  rw [same, Scan.meetsNoStray_append, Scan.meetsNoStray_append, Scan.after_blanks leftBlank,
    Bool.and_eq_true, Bool.and_eq_true] at noStray
  exact noStray.1.2

end Closed

end ContainerPreview.Text
