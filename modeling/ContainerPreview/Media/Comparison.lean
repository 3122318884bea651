import ContainerPreview.Text.Blank
import ContainerPreview.Text.Letter

/-!
# Comparisons in a media feature

The inside of a feature's parentheses may compare a feature with a value, in
either order, or enclose it between two values: `width <= 60em`,
`400px < width`, `400px <= width <= 700px`.  Such a comparison is written with
the names `min-` and `max-` instead.  Strict comparisons are read as non-strict
ones.
-/

namespace ContainerPreview.Media

open Text

/-- A character of a relation sign. -/
def isRelationChar (c : Char) : Bool :=
  c == '<' || c == '>' || c == '='

/-- The relation signs. -/
inductive Relation where
  | less
  | atMost
  | greater
  | atLeast
deriving DecidableEq, Repr

namespace Relation

/-- The relation that a sign stands for. -/
def ofSign? (sign : List Char) : Option Relation :=
  match sign with
  | ['<'] => some .less
  | ['<', '='] => some .atMost
  | ['>'] => some .greater
  | ['>', '='] => some .atLeast
  | _ => none

/-- The left side is the smaller one. -/
def ascends : Relation → Bool
  | .less | .atMost => true
  | .greater | .atLeast => false

end Relation

/-- The name of a feature: an ASCII letter, then name characters. -/
def isFeatureName : List Char → Bool
  | [] => false
  | c :: rest => c.isAlpha && rest.all isNameChar

/-- A comparison: one bound on a feature, or a lower and an upper one. -/
inductive Comparison where
  | lowerBound (feature value : List Char)
  | upperBound (feature value : List Char)
  | between (low feature high : List Char)
deriving DecidableEq, Repr

namespace Comparison

/-- The comparison of `left` and `right`, one of which is a feature.  The left
one is tried first, and the value may be blank but not empty. -/
def ofSides? (left : List Char) (relation : Relation) (right : List Char) : Option Comparison :=
  if isFeatureName (trim left) && !right.isEmpty then
    some <| if relation.ascends then .upperBound (trim left) (trim right)
      else .lowerBound (trim left) (trim right)
  else if isFeatureName (trim right) && !left.isEmpty then
    some <| if relation.ascends then .lowerBound (trim right) (trim left)
      else .upperBound (trim right) (trim left)
  else none

/-- The comparison that encloses a feature between two values.  Both relations
have to point in one direction. -/
def enclosing? (left : List Char) (first : Relation) (feature : List Char) (second : Relation)
    (right : List Char) : Option Comparison :=
  if isFeatureName (trim feature) && !left.isEmpty && !right.isEmpty &&
      first.ascends == second.ascends then
    some <| if first.ascends then .between (trim left) (trim feature) (trim right)
      else .between (trim right) (trim feature) (trim left)
  else none

/-- The comparison that the inside of a group states. -/
def parse? (text : List Char) : Option Comparison :=
  let (left, afterLeft) := text.span (!isRelationChar ·)
  let (firstSign, afterFirst) := afterLeft.span isRelationChar
  let (middle, afterMiddle) := afterFirst.span (!isRelationChar ·)
  let (secondSign, afterSecond) := afterMiddle.span isRelationChar
  match Relation.ofSign? firstSign with
  | none => none
  | some first =>
      if afterMiddle.isEmpty then ofSides? left first middle
      else if afterSecond.any isRelationChar then none
      else
        match Relation.ofSign? secondSign with
        | none => none
        | some second => enclosing? left first middle second afterSecond

/-- A group with a lower bound. -/
def writeMin (feature value : List Char) : List Char :=
  "(min-".toList ++ feature ++ ": ".toList ++ value ++ [')']

/-- A group with an upper bound. -/
def writeMax (feature value : List Char) : List Char :=
  "(max-".toList ++ feature ++ ": ".toList ++ value ++ [')']

/-- The comparison written with named bounds. -/
def write : Comparison → List Char
  | .lowerBound feature value => writeMin feature value
  | .upperBound feature value => writeMax feature value
  | .between low feature high => writeMin feature low ++ " and ".toList ++ writeMax feature high

end Comparison

/-- A character that is no parenthesis. -/
def isUngrouped (c : Char) : Bool :=
  c != '(' && c != ')'

/-- A text with `change` applied to the inside of every group that holds no
other group.  The result takes the place of the group with its parentheses. -/
def mapGroups (change : List Char → List Char) (text : List Char) : List Char :=
  match text with
  | [] => []
  | c :: rest =>
      if c == '(' then
        match _found : rest.dropWhile isUngrouped with
        | ')' :: after => change (rest.takeWhile isUngrouped) ++ mapGroups change after
        | _ => c :: mapGroups change rest
      else c :: mapGroups change rest
termination_by text.length
decreasing_by
  · have shorter := (List.dropWhile_sublist isUngrouped (l := rest)).length_le
    rw [_found] at shorter
    simp only [List.length_cons] at shorter ⊢
    omega
  all_goals simp

/-- A group with its comparison stated by named bounds, given its inside.  A
group that states no comparison stays as it is. -/
def boundGroup (inside : List Char) : List Char :=
  match Comparison.parse? inside with
  | some comparison => comparison.write
  | none => '(' :: inside ++ [')']

/-- A text with the comparisons of its innermost groups stated by named bounds. -/
def boundComparisons (text : List Char) : List Char :=
  mapGroups boundGroup text

end ContainerPreview.Media
