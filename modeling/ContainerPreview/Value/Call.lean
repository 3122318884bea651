import ContainerPreview.Text.Search
import ContainerPreview.Text.Letter
import ContainerPreview.Text.Paren

/-!
# Function calls in a value

The functions `calc` and `clamp` hold expressions of their own.  The first call
of either in a text is located with its body; a name that goes on to the left
is another function.  Only the first candidate counts: if its parenthesis is
never closed, the text has no call.
-/

namespace ContainerPreview.Value

open Text

/-- The functions whose bodies are converted on their own. -/
inductive MathFunction where
  | calc
  | clamp
deriving DecidableEq, Repr

/-- A call in a text: the text before it, its name as written, its body, and
the text after its closing parenthesis. -/
structure Call where
  function : MathFunction
  before : List Char
  name : List Char
  body : List Char
  after : List Char
deriving DecidableEq, Repr

/-- The function whose name and opening parenthesis a text starts with, and the
length of the name. -/
def functionHead? (text : List Char) : Option (MathFunction × Nat) :=
  if (dropStartFolded? ['c', 'a', 'l', 'c', '('] text).isSome then some (.calc, 4)
  else if (dropStartFolded? ['c', 'l', 'a', 'm', 'p', '('] text).isSome then some (.clamp, 5)
  else none

/-- The place of the first function head in a text after `previous`. -/
def firstHead? (previous : Option Char) : List Char → Option (Nat × MathFunction × Nat)
  | [] => none
  | c :: text =>
      match if previous.any isNameChar then none else functionHead? (c :: text) with
      | some head => some (0, head)
      | none => (firstHead? (some c) text).map fun found => (found.1 + 1, found.2)

/-- The first call in a text. -/
def firstCall? (text : List Char) : Option Call :=
  match firstHead? none text with
  | none => none
  | some (start, function, length) =>
      let fromName := text.drop start
      (closeGroup? (fromName.drop (length + 1))).map fun (body, after) =>
        { function, before := text.take start, name := fromName.take length, body, after }

/-- The body of a call and the text after it are shorter than the text that has
the call, since its parentheses belong to neither. -/
theorem length_of_firstCall? {text : List Char} {call : Call}
    (found : firstCall? text = some call) :
    call.body.length < text.length ∧ call.after.length < text.length := by
  unfold firstCall? at found
  split at found
  · cases found
  · obtain ⟨⟨body, after⟩, closed, rfl⟩ := Option.map_eq_some_iff.mp found
    have lengths := length_of_closeGroup? closed
    simp only [List.length_drop] at lengths
    constructor <;> simp only <;> omega

end ContainerPreview.Value
