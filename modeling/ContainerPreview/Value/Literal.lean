import ContainerPreview.Text.Search
import ContainerPreview.Text.Letter

/-!
# Literals in a value

Quoted strings and `url(...)` are literals: their text is never changed.  A
string ends at the first quote of its kind that no backslash stands before, and
a backslash does not reach over the end of a line.  A `url(` does not start
inside a name and ends at the next closing parenthesis.  What is not closed is
no literal.

A value is divided into its literals and the free text between them.
-/

namespace ContainerPreview.Value

open Text

/-- How far a string goes whose opening quote has just been passed, its closing
quote included. -/
def stringLength? (quote : Char) : List Char → Option Nat
  | [] => none
  | '\\' :: [] => none
  | '\\' :: c :: text => if c == '\n' then none else (stringLength? quote text).map (· + 2)
  | c :: text => if c == quote then some 1 else (stringLength? quote text).map (· + 1)

/-- How far an address goes after its `url(`, its closing parenthesis
included. -/
def addressLength? : List Char → Option Nat
  | [] => none
  | c :: text => if c == ')' then some 1 else (addressLength? text).map (· + 1)

/-- The length of the literal that a text after `previous` starts with. -/
def literalLength? (previous : Option Char) (text : List Char) : Option Nat :=
  match text with
  | [] => none
  | c :: rest =>
      if c == '"' || c == '\'' then (stringLength? c rest).map (· + 1)
      else if previous.any isNameChar then none
      else
        match dropStartFolded? ['u', 'r', 'l', '('] text with
        | some after => (addressLength? after).map (· + 4)
        | none => none

theorem pos_of_literalLength? {previous : Option Char} {text : List Char} {length : Nat}
    (found : literalLength? previous text = some length) : 0 < length ∧ text ≠ [] := by
  cases text with
  | nil => simp [literalLength?] at found
  | cons c rest =>
      refine ⟨?_, by simp⟩
      simp only [literalLength?] at found
      split at found
      · obtain ⟨_, _, rfl⟩ := Option.map_eq_some_iff.mp found
        omega
      · split at found
        · cases found
        · split at found
          · obtain ⟨_, _, rfl⟩ := Option.map_eq_some_iff.mp found
            omega
          · cases found

/-- A stretch of a value: free text, or a literal. -/
inductive Span where
  | free (text : List Char)
  | literal (text : List Char)
deriving DecidableEq, Repr

namespace Span

/-- The text of a stretch. -/
def text : Span → List Char
  | .free text => text
  | .literal text => text

/-- The text of the stretch with `convert` applied to free text. -/
def mapFree (convert : List Char → List Char) : Span → List Char
  | .free text => convert text
  | .literal text => text

/-- The stretch with one space in place of a literal. -/
def blankLiteral : Span → List Char
  | .free text => text
  | .literal _ => [' ']

end Span

/-- Puts a character of free text in front of the stretches. -/
def consFree (c : Char) : List Span → List Span
  | .free text :: spans => .free (c :: text) :: spans
  | spans => .free [c] :: spans

/-- The stretches of a value that stands after `previous`. -/
def spansAfter (previous : Option Char) (text : List Char) : List Span :=
  match _found : literalLength? previous text with
  | some length =>
      .literal (text.take length) ::
        spansAfter ((text.take length).getLast?) (text.drop length)
  | none =>
      match text with
      | [] => []
      | c :: rest => consFree c (spansAfter (some c) rest)
termination_by text.length
decreasing_by
  · have bounds := pos_of_literalLength? _found
    have positive := List.length_pos_iff.mpr bounds.2
    rw [List.length_drop]
    omega
  · simp

/-- The literals of a value and the free text between them. -/
def spans (text : List Char) : List Span :=
  spansAfter none text

/-- The value with `convert` applied to its free text and its literals kept. -/
def mapFree (convert : List Char → List Char) (text : List Char) : List Char :=
  (spans text).flatMap (Span.mapFree convert)

/-- The value with one space in place of every literal. -/
def blankLiterals (text : List Char) : List Char :=
  (spans text).flatMap Span.blankLiteral

@[simp]
theorem flatMap_text_consFree (c : Char) (spans : List Span) :
    (consFree c spans).flatMap Span.text = c :: spans.flatMap Span.text := by
  unfold consFree
  split <;> simp [Span.text]

/-- The stretches make up the value. -/
theorem flatMap_text_spansAfter (previous : Option Char) (text : List Char) :
    (spansAfter previous text).flatMap Span.text = text := by
  fun_induction spansAfter previous text with
  | case1 previous text length found inductionHypothesis =>
      simp [Span.text, inductionHypothesis]
  | case2 => rfl
  | case3 previous c rest _ inductionHypothesis => simp [inductionHypothesis]

end ContainerPreview.Value
