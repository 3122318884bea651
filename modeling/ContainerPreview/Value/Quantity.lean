import ContainerPreview.Text.Search
import ContainerPreview.Value.Number

/-!
# Quantities

A quantity is a number immediately followed by one of the given units, in any
case of letters: `2vw`, `-10SVW`.  It does not start inside a word or a longer
number, and the unit does not go on as a longer name.

A text is divided into its quantities and the characters between them, from
left to right.  The division loses nothing: its pieces make up the text.
-/

namespace ContainerPreview.Value

open Text

/-- A piece of a text: one character of it, or a quantity. -/
inductive Piece where
  | plain (c : Char)
  | quantity (number unit : List Char)
deriving DecidableEq, Repr

namespace Piece

/-- The text of a piece. -/
def text : Piece → List Char
  | .plain c => [c]
  | .quantity number unit => number ++ unit

/-- The unit of a quantity. -/
def unit? : Piece → Option (List Char)
  | .plain _ => none
  | .quantity _ unit => some unit

end Piece

/-- A reading of the start of a text as number and unit. -/
structure Reading where
  number : List Char
  unit : List Char
  rest : List Char
deriving DecidableEq, Repr

/-- The readings with a number of the given length, in the order of the
units. -/
def readingsWith (units : List (List Char)) (text : List Char) (length : Nat) : List Reading :=
  units.filterMap fun unit =>
    (dropStartFolded? unit (text.drop length)).map fun rest =>
      { number := text.take length, unit := (text.drop length).take unit.length, rest }

/-- The readings of the start of a text as number and unit, in the order in
which they are tried. -/
def readings (units : List (List Char)) (text : List Char) : List Reading :=
  (numberLengths text).flatMap (readingsWith units text)

/-- A name ends before `text`. -/
def nameEnds (text : List Char) : Bool :=
  !(text.head?.any isNameChar)

/-- A quantity may start after `previous`. -/
def quantityMayFollow (previous : Option Char) : Bool :=
  !(previous.any fun c => isNameChar c || c == '.')

/-- The quantity that a text starts with. -/
def quantityAt? (units : List (List Char)) (text : List Char) : Option Reading :=
  (readings units text).find? fun reading => nameEnds reading.rest

/-- A reading gives the text back. -/
theorem append_of_mem_readings {units : List (List Char)} {text : List Char} {reading : Reading}
    (member : reading ∈ readings units text) :
    0 < reading.number.length ∧ reading.number ++ reading.unit ++ reading.rest = text := by
  obtain ⟨length, isLength, atLength⟩ := List.mem_flatMap.mp member
  obtain ⟨unit, _, found⟩ := List.mem_filterMap.mp atLength
  obtain ⟨rest, dropped, rfl⟩ := Option.map_eq_some_iff.mp found
  have same := drop_of_dropStartFolded? dropped
  refine ⟨?_, ?_⟩
  · have positive := pos_of_mem_numberLengths isLength
    cases text with
    | nil => simp [numberLengths] at isLength
    | cons c text =>
        simp only [List.length_take, List.length_cons]
        omega
  · simp only [← same, List.append_assoc, List.take_append_drop]

/-- What follows a quantity is shorter than the text that starts with it. -/
theorem length_rest_lt {units : List (List Char)} {text : List Char} {reading : Reading}
    (found : quantityAt? units text = some reading) : reading.rest.length < text.length := by
  obtain ⟨positive, same⟩ := append_of_mem_readings (List.mem_of_find?_eq_some found)
  rw [← same]
  simp only [List.length_append]
  omega

/-- The pieces of a text that stands after `previous`. -/
def piecesAfter (units : List (List Char)) (previous : Option Char) (text : List Char) :
    List Piece :=
  match text with
  | [] => []
  | c :: rest =>
      match _found : if quantityMayFollow previous then quantityAt? units (c :: rest) else none with
      | some reading =>
          .quantity reading.number reading.unit ::
            piecesAfter units (reading.number ++ reading.unit).getLast? reading.rest
      | none => .plain c :: piecesAfter units (some c) rest
termination_by text.length
decreasing_by
  · split at _found
    · exact length_rest_lt _found
    · cases _found
  · simp

/-- The quantities of a text and the characters between them. -/
def pieces (units : List (List Char)) (text : List Char) : List Piece :=
  piecesAfter units none text

/-- The pieces make up the text. -/
theorem flatMap_text_piecesAfter (units : List (List Char)) (previous : Option Char)
    (text : List Char) : (piecesAfter units previous text).flatMap Piece.text = text := by
  fun_induction piecesAfter units previous text with
  | case1 => rfl
  | case2 previous c rest reading found inductionHypothesis =>
      obtain ⟨-, chosen⟩ := Option.ite_none_right_eq_some.mp found
      have same := (append_of_mem_readings (List.mem_of_find?_eq_some chosen)).2
      simp only [List.flatMap_cons, Piece.text, inductionHypothesis, same]
  | case3 previous c rest _ inductionHypothesis =>
      simp [Piece.text, inductionHypothesis]

end ContainerPreview.Value
