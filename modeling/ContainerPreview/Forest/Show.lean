import ContainerPreview.Forest.Edit
import ContainerPreview.Selector.Guard
import ContainerPreview.Sheet.Printer

/-!
# Showing the nodes of a forest

A node of a forest is written like the tree that it is the top of.  A generic
node cannot be written, nor can anything that would have to be written with it.
A node can also be described in one line.
-/

namespace ContainerPreview.Forest

/-- The tree below a node, to as many levels as given, unless something generic
is in it.  What stands below an at-rule without a block is never written and is
left out. -/
def treeTo? (forest : Forest) : Nat → NodeId → Option Node
  | 0, _ => none
  | levels + 1, id =>
      let cell := forest.cell id
      match cell.kind with
      | .generic | .container => none
      | .leaf content => some (.leaf cell.source content)
      | .block (.atRule name params false) =>
          some (.block cell.source (.atRule name params false) false [])
      | .block head =>
          (cell.children.mapM (treeTo? forest levels)).map (.block cell.source head false)

/-- The tree below a node as far as it is written. -/
def tree? (forest : Forest) (id : NodeId) : Option Node :=
  forest.treeTo? (forest.size + 1) id

/-- The text of a node at the given depth. -/
def cssAt (forest : Forest) (depth : Nat) (id : NodeId) : Except EditError String :=
  match forest.tree? id with
  | some tree => .ok (tree.cssAt depth)
  | none => .error .unsupported

/-- A count of nodes in words. -/
def countNodes (cell : Cell) : String :=
  toString cell.children.length ++ " nodes"

/-- The description of a node in one line. -/
def describe (forest : Forest) (id : NodeId) : String :=
  let cell := forest.cell id
  match cell.kind with
  | .generic => "Node()"
  | .container => "Container(" ++ countNodes cell ++ ")"
  | .leaf (.declaration content) =>
      "Declaration(" ++ Text.quoted content.property ++ ", " ++ Text.quoted content.value ++ ")"
  | .leaf (.comment text) => "Comment(" ++ Text.quoted text ++ ")"
  | .block .sheet =>
      "Root(" ++ countNodes cell ++ ", source=" ++
        ((cell.source.map Text.quoted).getD "None") ++ ")"
  | .block (.rule selector) =>
      "Rule(" ++ Text.quoted selector ++ ", " ++ countNodes cell ++ ")"
  | .block (.atRule name params _) =>
      "AtRule(" ++ Text.quoted name ++ ", " ++ Text.quoted params ++ ", " ++ countNodes cell ++ ")"

/-- The selectors of a rule, one by one. -/
def selectorsOf (forest : Forest) (id : NodeId) : List String :=
  match (forest.cell id).kind with
  | .block (.rule selector) => (Selector.selectorsOf selector.toList).map String.ofList
  | _ => []

end ContainerPreview.Forest
