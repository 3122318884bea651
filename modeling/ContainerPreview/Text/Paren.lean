/-!
# Matching parentheses

The closing parenthesis that matches an opening one is the first place at which
as many have been closed as opened.  Only parentheses count: brackets and
quotes are ordinary characters here.
-/

namespace ContainerPreview.Text

/-- How far a scan that has `depth` parentheses open goes until it closes the
last of them. -/
def closingFrom (depth : Int) : List Char → Option Nat
  | [] => none
  | c :: text =>
      if c == '(' then (closingFrom (depth + 1) text).map (· + 1)
      else if c == ')' then
        if depth - 1 = 0 then some 0 else (closingFrom (depth - 1) text).map (· + 1)
      else (closingFrom depth text).map (· + 1)

/-- The index of the parenthesis that closes what is opened from `index` on. -/
def closingParen? (text : List Char) (index : Nat) : Option Nat :=
  (closingFrom 0 (text.drop index)).map (index + ·)

/-- The body of a group whose opening parenthesis has just been passed, and the
text after its closing parenthesis. -/
def closeGroup? (text : List Char) : Option (List Char × List Char) :=
  (closingFrom 1 text).map fun stop => (text.take stop, text.drop (stop + 1))

theorem closingFrom_lt_length {depth : Int} {text : List Char} {stop : Nat}
    (found : closingFrom depth text = some stop) : stop < text.length := by
  induction text generalizing depth stop with
  | nil => simp [closingFrom] at found
  | cons c text inductionHypothesis =>
      rw [closingFrom] at found
      split at found
      · obtain ⟨before, later, rfl⟩ := Option.map_eq_some_iff.mp found
        exact Nat.succ_lt_succ (inductionHypothesis later)
      · split at found
        · split at found
          · cases found
            simp
          · obtain ⟨before, later, rfl⟩ := Option.map_eq_some_iff.mp found
            exact Nat.succ_lt_succ (inductionHypothesis later)
        · obtain ⟨before, later, rfl⟩ := Option.map_eq_some_iff.mp found
          exact Nat.succ_lt_succ (inductionHypothesis later)

/-- Body and remainder of a group are shorter than the text that begins inside
it, since its closing parenthesis belongs to neither. -/
theorem length_of_closeGroup? {text body rest : List Char}
    (closed : closeGroup? text = some (body, rest)) :
    body.length + rest.length + 1 = text.length := by
  obtain ⟨stop, found, same⟩ := Option.map_eq_some_iff.mp closed
  have bound := closingFrom_lt_length found
  simp only [Prod.mk.injEq] at same
  rw [← same.1, ← same.2, List.length_take, List.length_drop]
  omega

end ContainerPreview.Text
