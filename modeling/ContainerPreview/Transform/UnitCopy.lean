import ContainerPreview.Options
import ContainerPreview.Transform.Toggle.Rule

/-!
# Copying declarations with viewport units

This transform adds a rule after every rule that uses viewport units.  The added
rule holds the declarations that use them, converted, and its selectors stand
below a given one.  A rule whose selectors already mention the given one is left
alone, and so are the rules directly in keyframes.
-/

namespace ContainerPreview

/-- The transform that copies declarations with viewport units. -/
structure UnitCopy where
  selector : String
  converter : Converter

namespace UnitCopy

/-- The units that are converted by default. -/
def standardUnits : UnitMap :=
  [("vh", "cqh"), ("vw", "cqw")]

/-- The transform for a selector.  Without units, or with none in the map, the
standard ones are converted. -/
def make (selector : String) (units : Option UnitMap) : Except OptionError UnitCopy :=
  let units :=
    match units with
    | some (entry :: entries) => entry :: entries
    | _ => standardUnits
  if selector.isEmpty then .error .emptySelector
  else .ok { selector, converter := .ofMaps units none }

/-- A selector list below the given selector. -/
def scopeList (transform : UnitCopy) (selector : String) : String :=
  String.ofList <| [',', ' '].intercalate <|
    (Selector.selectorsOf selector.toList).map fun single =>
      transform.selector.toList ++ ' ' :: single

/-- The copy of a child that is a declaration with a viewport unit. -/
def copyOf? (transform : UnitCopy) : Node → Option Node
  | .leaf source (.declaration declaration) =>
      if transform.converter.hasUnits declaration.value then
        let value := transform.converter.convert declaration.value
        some (.leaf source (.declaration { declaration with value }))
      else none
  | _ => none

/-- The rule to add after a rule in a block from the file `around`. -/
def addedRule? (transform : UnitCopy) (inKeyframes : Bool) (around : Option String)
    (selector : String) (children : List Node) : Option Node :=
  let copies := children.filterMap transform.copyOf?
  if Text.contains selector transform.selector || inKeyframes || copies.isEmpty then none
  else some (.block around (.rule (transform.scopeList selector)) false copies)

mutual
/-- The nodes that a node becomes: itself, with rules added below it, and the
rule added after it. -/
def expandNode (transform : UnitCopy) (inKeyframes : Bool) (around : Option String) :
    Node → List Node
  | .leaf source content => [.leaf source content]
  | .block source (.rule selector) settled children =>
      .block source (.rule selector) settled (expandNodes transform false source children) ::
        (transform.addedRule? inKeyframes around selector children).toList
  | .block source head settled children =>
      [.block source head settled (expandNodes transform head.isKeyframes source children)]
/-- The nodes that a list of nodes becomes. -/
def expandNodes (transform : UnitCopy) (inKeyframes : Bool) (around : Option String) :
    List Node → List Node
  | [] => []
  | node :: nodes =>
      expandNode transform inKeyframes around node ++ expandNodes transform inKeyframes around nodes
end

/-- Applies the transform to a sheet. -/
def apply (transform : UnitCopy) : Node → Node
  | .leaf source content => .leaf source content
  | .block source head settled children =>
      .block source head settled (expandNodes transform head.isKeyframes source children)

end UnitCopy

end ContainerPreview
