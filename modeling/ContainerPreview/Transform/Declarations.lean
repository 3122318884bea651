import ContainerPreview.Report.Event
import ContainerPreview.Sheet.Node
import ContainerPreview.Text.Blank
import ContainerPreview.Value.Converter

/-!
# Declarations of a container variant

The container variant of a rule holds the rule's declarations made fit for the
container.  In a rule with a fixed position, that position becomes sticky and
the offsets go behind variables of their own: `top: 1vh` becomes
`--container-top: 1cqh` and `top: var(--container-top)`.  All other values have
their units converted.

A rule needs a variant if it has a fixed position or uses a viewport unit.
-/

namespace ContainerPreview

/-- The properties that are offsets from an edge. -/
def edges : List String :=
  ["top", "right", "bottom", "left"]

namespace Declaration

/-- The value is the keyword `fixed`. -/
def isFixedValue (declaration : Declaration) : Bool :=
  Text.lower (Text.trim declaration.value.toList) == "fixed".toList

/-- The declaration of a position. -/
def isPosition (declaration : Declaration) : Bool :=
  declaration.property == "position"

/-- The declaration of a fixed position. -/
def isFixed (declaration : Declaration) : Bool :=
  declaration.isPosition && declaration.isFixedValue

/-- The declaration of an offset from an edge. -/
def isOffset (declaration : Declaration) : Bool :=
  ["top", "right", "bottom", "left"].contains declaration.property

/-- The declaration with a fixed value made sticky. -/
def makeSticky (declaration : Declaration) : Declaration :=
  if declaration.isFixedValue then { declaration with value := "sticky" } else declaration

/-- The variable that an offset goes behind. -/
def variableName (declaration : Declaration) : String :=
  "--container-" ++ declaration.property

/-- The declaration of the variable with the value of the offset. -/
def variableDeclaration (declaration : Declaration) : Declaration :=
  { declaration with property := declaration.variableName }

/-- The offset with a reference to its variable as its value. -/
def referToVariable (declaration : Declaration) : Declaration :=
  { declaration with value := "var(" ++ declaration.variableName ++ ")" }

end Declaration

/-- A declaration at any depth has a fixed position. -/
def hasFixedPosition (nodes : List Node) : Bool :=
  (declarationsIn nodes).any Declaration.isFixed

/-- A rule with these children needs a container variant. -/
def needsVariant (converter : Converter) (nodes : List Node) : Bool :=
  hasFixedPosition nodes ||
    (declarationsIn nodes).any fun declaration => converter.hasUnits declaration.value

namespace Converter

/-- The map that the units of a property are looked up in. -/
def unitsFor (converter : Converter) (property : String) : UnitMap :=
  if Value.isTypographic property then converter.typographyUnits else converter.units

/-- The units of a value that is converted, with their targets. -/
def conversionEvents (converter : Converter) (declaration : Declaration) : List Event :=
  (converter.unitsIn declaration.value).map fun unit =>
    .unitConverted unit ((converter.unitsFor declaration.property).targetOrSelf unit)

/-- A declaration with its units converted. -/
def convertDeclaration (converter : Converter) (declaration : Declaration) : Declaration :=
  { declaration with value := converter.convertFor declaration.property declaration.value }

/-- Conversion changes the value of a declaration. -/
def changes (converter : Converter) (declaration : Declaration) : Bool :=
  converter.convertFor declaration.property declaration.value != declaration.value

/-- A declaration with its units converted, and the units that were. -/
def traceDeclaration (converter : Converter) (declaration : Declaration) : Traced Declaration :=
  { value := converter.convertDeclaration declaration,
    events := if converter.changes declaration then converter.conversionEvents declaration else [] }

end Converter

/-- What the declarations of a variant amount to: the nodes, and how many values
were changed by converting their units. -/
structure Variant where
  nodes : List Node
  converted : Nat

namespace Variant

/-- Two parts of a variant, one after the other. -/
def append (left right : Variant) : Variant :=
  { nodes := left.nodes ++ right.nodes, converted := left.converted + right.converted }

/-- A node with nothing converted in it. -/
def ofNode (node : Node) : Variant :=
  { nodes := [node], converted := 0 }

end Variant

/-- A converted declaration of a variant. -/
def convertedLeaf (converter : Converter) (source : Option String) (declaration : Declaration) :
    Traced Variant := do
  let converted ← converter.traceDeclaration declaration
  return { nodes := [.leaf source (.declaration converted)],
           converted := if converter.changes declaration then 1 else 0 }

/-- The declarations of a variant that one declaration gives.  The flag tells
whether the rule has a fixed position, and `file` is that of the block around
the declaration. -/
def declarationVariant (converter : Converter) (fixed : Bool) (file source : Option String)
    (declaration : Declaration) : Traced Variant :=
  if fixed && declaration.isPosition then
    pure (.ofNode (.leaf source (.declaration declaration.makeSticky)))
  else if fixed && declaration.isOffset then do
    let holder ← convertedLeaf converter (source.or file) declaration.variableDeclaration
    return holder.append (.ofNode (.leaf source (.declaration declaration.referToVariable)))
  else convertedLeaf converter source declaration

mutual
/-- The nodes of a variant that one node of a rule gives. -/
def nodeVariant (converter : Converter) (fixed : Bool) (file : Option String) :
    Node → Traced Variant
  | .leaf source (.declaration declaration) =>
      declarationVariant converter fixed file source declaration
  | .leaf source (.comment text) => pure (.ofNode (.leaf source (.comment text)))
  | .block source head settled children => do
      let inner ← nodesVariant converter fixed source children
      return { nodes := [.block source head settled inner.nodes], converted := inner.converted }
/-- The nodes of a variant that the nodes of a rule give. -/
def nodesVariant (converter : Converter) (fixed : Bool) (file : Option String) :
    List Node → Traced Variant
  | [] => pure { nodes := [], converted := 0 }
  | node :: nodes => do
      let first ← nodeVariant converter fixed file node
      let others ← nodesVariant converter fixed file nodes
      return first.append others
end

/-- What processing the declarations of a block found and did. -/
structure Processing where
  children : List Node
  fixed : Bool
  converted : Nat

/-- The children of a block from the given file as those of a container
variant.  The children of any other block are only looked at. -/
def processChildren (converter : Converter) (forContainer : Bool) (file : Option String)
    (children : List Node) : Traced Processing :=
  let fixed := hasFixedPosition children
  if forContainer then do
    let variant ← nodesVariant converter fixed file children
    return { children := variant.nodes, fixed, converted := variant.converted }
  else pure { children, fixed, converted := 0 }

end ContainerPreview
