import ContainerPreview.Sheet.Node

/-!
# Forests of nodes

For editing, nodes are kept in a forest: every node has a number, knows its
parent, and lists its children by number.  A node can then be named while it is
moved from one place to another.

Besides the nodes of a style sheet a forest can hold two generic kinds, a node
and a container without any content of their own.  They can be moved like all
others but neither copied nor written.

What a node has from its class, such as its operations and the name of its kind,
can be covered by a value of its own.  Messages give the name that a node then
has; calling an operation that has been covered is not described here.

A walk over the children of a container keeps a cursor in it, which editing the
children moves along.
-/

namespace ContainerPreview

/-- What a node of a forest is. -/
inductive Kind where
  | generic
  | container
  | leaf (content : Leaf)
  | block (head : Head)
deriving DecidableEq, Repr, Inhabited

namespace Kind

/-- The name of a kind, as messages give it. -/
def name : Kind → String
  | .generic => "node"
  | .container => "container"
  | .leaf (.declaration _) => "decl"
  | .leaf (.comment _) => "comment"
  | .block .sheet => "root"
  | .block (.rule _) => "rule"
  | .block (.atRule _ _ _) => "atrule"

/-- A node of this kind has children. -/
def isContainer : Kind → Bool
  | .generic | .leaf _ => false
  | .container | .block _ => true

end Kind

/-- A value for an attribute of a node. -/
inductive FieldValue where
  | text (text : String)
  | flag (flag : Bool)
  | none
deriving DecidableEq, Repr

namespace FieldValue

/-- The text of a value. -/
def asText : FieldValue → String
  | .text content => content
  | _ => ""

/-- The flag of a value. -/
def asFlag : FieldValue → Bool
  | .flag content => content
  | _ => false

/-- The value as a file name. -/
def asSource : FieldValue → Option String
  | .text content => some content
  | _ => Option.none

/-- The value as messages show it. -/
def display : FieldValue → String
  | .text content => content
  | .flag true => "True"
  | .flag false => "False"
  | .none => "None"

/-- The name of the sort of a value. -/
def sortName : FieldValue → String
  | .text _ => "str"
  | .flag _ => "bool"
  | .none => "NoneType"

end FieldValue

/-- The number of a node. -/
abbrev NodeId := Nat

/-- A cursor of a walk: its number, and the index of the child that the walk is
at.  The index is one below zero after the first child has been removed while
the walk was at it. -/
structure Cursor where
  key : Nat
  index : Int
deriving DecidableEq, Repr

/-- A node of a forest. -/
structure Cell where
  kind : Kind := .generic
  source : Option String := none
  parent : Option NodeId := none
  children : List NodeId := []
  cursors : List Cursor := []
  /-- The values that cover what the node has from its class, the latest first. -/
  covers : List (String × FieldValue) := []
deriving DecidableEq, Repr, Inhabited

namespace Cell

/-- The value that covers what the node has from its class under a name. -/
def cover? (cell : Cell) (name : String) : Option FieldValue :=
  cell.covers.lookup name

/-- The name of the kind of the node, as messages give it. -/
def kindName (cell : Cell) : String :=
  ((cell.cover? "type").map FieldValue.display).getD cell.kind.name

end Cell

/-- A forest: its nodes by number, and the number of the next cursor. -/
structure Forest where
  cells : Array Cell := #[]
  nextKey : Nat := 0
deriving Repr, Inhabited

/-- Why an edit fails. -/
inductive EditError where
  /-- A node would come to stand below itself. -/
  | ownSubtree
  /-- A node is not among the children it is looked for in. -/
  | notAChild (child container : String)
  /-- A node has no parent. -/
  | noParent (kind : String)
  /-- A copy has no such attribute, or it is one of its links. -/
  | cannotOverride (name kind : String)
  /-- An attribute of a class cannot be assigned. -/
  | readOnly (name className : String)
  /-- An attribute takes no value of this sort. -/
  | wrongSort (name sort : String)
  /-- Nodes of a generic kind can be neither copied nor written. -/
  | unsupported
  /-- There are more levels below a node than the stack reaches down. -/
  | tooDeep
deriving DecidableEq, Repr

namespace Forest

/-- The number of nodes. -/
def size (forest : Forest) : Nat :=
  forest.cells.size

/-- The node with a number.  A number that is not in use is that of a generic
node with nothing around it. -/
def cell (forest : Forest) (id : NodeId) : Cell :=
  forest.cells.getD id {}

/-- The forest with one node changed. -/
def update (forest : Forest) (id : NodeId) (change : Cell → Cell) : Forest :=
  { forest with cells := forest.cells.modify id change }

/-- The forest with one more node, whose number is the old size. -/
def add (forest : Forest) (cell : Cell) : Forest :=
  { forest with cells := forest.cells.push cell }

@[simp]
theorem size_update (forest : Forest) (id : NodeId) (change : Cell → Cell) :
    (forest.update id change).size = forest.size := by
  simp [update, size]

@[simp]
theorem size_add (forest : Forest) (cell : Cell) : (forest.add cell).size = forest.size + 1 := by
  simp [add, size]

theorem cell_update_self {forest : Forest} {id : NodeId} (inUse : id < forest.size)
    (change : Cell → Cell) : (forest.update id change).cell id = change (forest.cell id) := by
  simp only [size] at inUse
  simp [update, cell, inUse, Array.getElem_modify]

/-- Changing one node leaves all others alone. -/
theorem cell_update_of_ne {forest : Forest} {id other : NodeId} (different : other ≠ id)
    (change : Cell → Cell) : (forest.update id change).cell other = forest.cell other := by
  simp only [update, cell, Array.getD_eq_getD_getElem?, Array.getElem?_modify]
  simp [Ne.symm different]

/-- The parent of a node. -/
def parent? (forest : Forest) (id : NodeId) : Option NodeId :=
  (forest.cell id).parent

/-- The children of a node. -/
def children (forest : Forest) (id : NodeId) : List NodeId :=
  (forest.cell id).children

/-- The name of the kind of a node. -/
def kindName (forest : Forest) (id : NodeId) : String :=
  (forest.cell id).kindName

/-- A node is above another, looking up as many levels as given. -/
def isAbove (forest : Forest) (ancestor : NodeId) : Nat → NodeId → Bool
  | 0, _ => false
  | levels + 1, id =>
      match forest.parent? id with
      | none => false
      | some parent => parent == ancestor || isAbove forest ancestor levels parent

/-- The top of the tree that a node is in, looking up as many levels as
given. -/
def topFrom (forest : Forest) : Nat → NodeId → NodeId
  | 0, id => id
  | levels + 1, id =>
      match forest.parent? id with
      | none => id
      | some parent => topFrom forest levels parent

/-- The top of the tree that a node is in. -/
def top (forest : Forest) (id : NodeId) : NodeId :=
  forest.topFrom forest.size id

/-- The place of a child among the children of a container. -/
def indexOf (forest : Forest) (container child : NodeId) : Except EditError Nat :=
  match (forest.children container).idxOf? child with
  | some index => .ok index
  | none => .error (.notAChild (forest.kindName child) (forest.kindName container))

/-- The first child of a container. -/
def first? (forest : Forest) (container : NodeId) : Option NodeId :=
  (forest.children container).head?

/-- The last child of a container. -/
def last? (forest : Forest) (container : NodeId) : Option NodeId :=
  (forest.children container).getLast?

/-- The sibling after a node. -/
def next? (forest : Forest) (id : NodeId) : Except EditError (Option NodeId) :=
  match forest.parent? id with
  | none => .ok none
  | some parent => do
      let index ← forest.indexOf parent id
      return (forest.children parent)[index + 1]?

/-- The sibling before a node. -/
def previous? (forest : Forest) (id : NodeId) : Except EditError (Option NodeId) :=
  match forest.parent? id with
  | none => .ok none
  | some parent => do
      let index ← forest.indexOf parent id
      return if index = 0 then none else (forest.children parent)[index - 1]?

/-- The declarations directly below a node. -/
def declarationsOf (forest : Forest) (id : NodeId) : List Declaration :=
  (forest.children id).filterMap fun child =>
    match (forest.cell child).kind with
    | .leaf (.declaration declaration) => some declaration
    | _ => none

/-- The nodes below a node, each before those below it, down to as many levels as given. -/
def belowTo (forest : Forest) : Nat → NodeId → List NodeId
  | 0, _ => []
  | levels + 1, id => (forest.children id).flatMap fun child => child :: forest.belowTo levels child

/-- There are no more levels of containers than given, the node itself being one of them if it is a
container. -/
def isWithin (forest : Forest) : Nat → NodeId → Bool
  | 0, id => !(forest.cell id).kind.isContainer
  | levels + 1, id => (forest.children id).all fun child => forest.isWithin levels child

end Forest

end ContainerPreview
