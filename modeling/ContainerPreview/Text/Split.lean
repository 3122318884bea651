/-!
# Splitting at the top level

A style sheet lists things with a separator that also occurs inside groups: in
parentheses, brackets and quotes.  A scan over the text keeps the closers that
the open groups wait for and the quote it is inside; a separator counts only
where neither is left.

Unbalanced text is no error.  A closer that no group waits for is an ordinary
character, and a group that is never closed takes the rest of the text.
-/

namespace ContainerPreview.Text

/-- Where a scan stands: the closers of the open groups, innermost first, the
quote it is inside, and whether a backslash in the quote has taken the next
character. -/
structure Scan where
  closers : List Char := []
  quote : Option Char := none
  escaped : Bool := false
deriving DecidableEq, Repr

/-- The closer of a group that `c` opens. -/
def closerOf? (c : Char) : Option Char :=
  if c == '(' then some ')' else if c == '[' then some ']' else none

namespace Scan

/-- The scan at the start of a text. -/
def start : Scan := {}

/-- The scan is outside quotes. -/
def isPlain (scan : Scan) : Bool :=
  scan.quote.isNone

/-- The scan after one more character. -/
def step (scan : Scan) (c : Char) : Scan :=
  match scan.quote with
  | some quote =>
      if scan.escaped then { scan with escaped := false }
      else if c == '\\' then { scan with escaped := true }
      else if c == quote then { scan with quote := none }
      else scan
  | none =>
      if c == '\'' || c == '"' then { scan with quote := some c }
      else
        match closerOf? c with
        | some closer => { scan with closers := closer :: scan.closers }
        | none =>
            if scan.closers.head? == some c then { scan with closers := scan.closers.tail }
            else scan

/-- Whether the scan splits at `c`: outside quotes and groups, where `c` is the
separator and neither a quote nor an opener. -/
def splitsAt (scan : Scan) (separator c : Char) : Bool :=
  scan.isPlain && c != '\'' && c != '"' && (closerOf? c).isNone && scan.closers.isEmpty &&
    c == separator

end Scan

/-- Puts a character in front of the first part. -/
def consFirst (c : Char) : List (List Char) → List (List Char)
  | [] => [[c]]
  | part :: parts => (c :: part) :: parts

/-- The parts of a text that a scan splits from where it stands. -/
def splitFrom (separator : Char) : Scan → List Char → List (List Char)
  | _, [] => [[]]
  | scan, c :: text =>
      if scan.splitsAt separator c then [] :: splitFrom separator scan text
      else consFirst c (splitFrom separator (scan.step c) text)

/-- The parts of a text between the separators at its top level. -/
def splitTopLevel (separator : Char) (text : List Char) : List (List Char) :=
  splitFrom separator Scan.start text

@[simp]
theorem splitTopLevel_nil (separator : Char) : splitTopLevel separator [] = [[]] :=
  rfl

/-- A part is never longer than the text it was cut from. -/
theorem length_le_of_mem_splitFrom {separator : Char} {scan : Scan} {text part : List Char}
    (member : part ∈ splitFrom separator scan text) : part.length ≤ text.length := by
  induction text generalizing scan part with
  | nil => simp_all [splitFrom]
  | cons c text inductionHypothesis =>
      rw [splitFrom] at member
      split at member
      · rcases List.mem_cons.mp member with rfl | later
        · simp
        · exact Nat.le_succ_of_le (inductionHypothesis later)
      · cases parts : splitFrom separator (scan.step c) text with
        | nil => simp_all [consFirst]
        | cons first others =>
            simp only [parts, consFirst, List.mem_cons] at member
            rcases member with rfl | later
            · exact Nat.succ_le_succ (inductionHypothesis (by rw [parts]; simp))
            · exact Nat.le_succ_of_le (inductionHypothesis (by rw [parts]; simp [later]))

theorem length_le_of_mem_splitTopLevel {separator : Char} {text part : List Char}
    (member : part ∈ splitTopLevel separator text) : part.length ≤ text.length :=
  length_le_of_mem_splitFrom member

end ContainerPreview.Text
