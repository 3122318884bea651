import ContainerPreview.Text.Letter

/-!
# Numbers in a value

A number is an optional sign, then digits with an optional point that is
followed by at least one digit: `2`, `-.5`, `+10.25`.  A text may start with
several numbers, since what follows the number decides where it ends; the
readings are listed in the order in which they are tried, the one with the
point and the most digits first.
-/

namespace ContainerPreview.Value

open Text

/-- A sign of a number. -/
def isSign (c : Char) : Bool :=
  c == '+' || c == '-'

/-- The numbers from `count` down to one. -/
def downFrom (count : Nat) : List Nat :=
  (List.range count).reverse.map (· + 1)

/-- How many digits a text starts with. -/
def leadingDigits (text : List Char) : Nat :=
  (text.takeWhile isDigit).length

/-- The digits after a point that the text starts with. -/
def fractionDigits : List Char → Nat
  | '.' :: text => leadingDigits text
  | _ => 0

/-- The lengths of the unsigned numbers that a text starts with. -/
def unsignedLengths (text : List Char) : List Nat :=
  let whole := leadingDigits text
  (downFrom (fractionDigits (text.drop whole))).map (whole + 1 + ·) ++ downFrom whole

/-- The lengths of the numbers that a text starts with. -/
def numberLengths : List Char → List Nat
  | [] => []
  | c :: text =>
      if isSign c then (unsignedLengths text).map (· + 1) else unsignedLengths (c :: text)

/-- The whole text is one number. -/
def isNumber (text : List Char) : Bool :=
  (numberLengths text).contains text.length

theorem pos_of_mem_downFrom {count n : Nat} (member : n ∈ downFrom count) : 0 < n := by
  simp only [downFrom, List.mem_map] at member
  obtain ⟨_, _, rfl⟩ := member
  omega

theorem pos_of_mem_unsignedLengths {text : List Char} {n : Nat}
    (member : n ∈ unsignedLengths text) : 0 < n := by
  simp only [unsignedLengths, List.mem_append, List.mem_map] at member
  rcases member with ⟨_, _, rfl⟩ | member
  · omega
  · exact pos_of_mem_downFrom member

/-- A number has at least one character. -/
theorem pos_of_mem_numberLengths {text : List Char} {n : Nat}
    (member : n ∈ numberLengths text) : 0 < n := by
  cases text with
  | nil => simp [numberLengths] at member
  | cons c text =>
      simp only [numberLengths] at member
      split at member
      · obtain ⟨_, _, rfl⟩ := List.mem_map.mp member
        omega
      · exact pos_of_mem_unsignedLengths member

end ContainerPreview.Value
