import ContainerPreview.Forest.Attribute
import ContainerPreview.Text.Quoted

/-!
# Editing a forest

Nodes are put into a container by taking them, one after another, out of where
they are.  A node cannot be put below itself.  A node without a file of its own
takes that of the container it is put into.

An edit that fails halfway leaves the forest as it is at that moment: the nodes
taken so far have the container as their parent without being among its
children.
-/

namespace ContainerPreview

namespace EditError

/-- The message for a failed edit. -/
def message : EditError → String
  | .ownSubtree => "Cannot insert a node into its own subtree"
  | .notAChild child container => child ++ " node is not a child of this " ++ container
  | .noParent kind => kind ++ " node has no parent"
  | .cannotOverride name kind =>
      "Cannot override " ++ Text.quoted name ++ " on " ++ kind ++ " node"
  | .readOnly "__weakref__" _ => "attribute '__weakref__' of 'Node' objects is not writable"
  | .readOnly name className =>
      "property " ++ Text.quoted name ++ " of " ++ Text.quoted className ++ " object has no setter"
  | .wrongSort "__dict__" sort => "__dict__ must be set to a dictionary, not a " ++ Text.quoted sort
  | .wrongSort name sort =>
      name ++ " must be set to a class, not " ++ Text.quoted sort ++ " object"
  | .unsupported => ""
  | .tooDeep => "maximum recursion depth exceeded"

/-- The error is about a value that does not fit: a node in the wrong place or a
name that cannot be overridden. -/
def isValueError : EditError → Bool
  | .ownSubtree | .notAChild _ _ | .noParent _ | .cannotOverride _ _ => true
  | .readOnly _ _ | .wrongSort _ _ | .unsupported | .tooDeep => false

end EditError

/-- An edit: it changes the forest and gives a result or fails.  What it changed
before it failed stays changed. -/
abbrev Edit (α : Type) := ExceptT EditError (StateM Forest) α

namespace Edit

/-- The result of an edit together with the forest after it. -/
def apply {α : Type} (edit : Edit α) (forest : Forest) : Except EditError α × Forest :=
  (ExceptT.run edit).run forest

/-- A question to the forest, which may have no answer. -/
def ask {α : Type} (question : Forest → Except EditError α) : Edit α := do
  match question (← get) with
  | .ok answer => return answer
  | .error error => throw error

/-- Changes one node. -/
def change (id : NodeId) (change : Cell → Cell) : Edit Unit :=
  modify fun forest => forest.update id change

end Edit

namespace Cell

/-- The node with every cursor moved. -/
def moveCursors (move : Int → Int) (cell : Cell) : Cell :=
  { cell with
    cursors := cell.cursors.map fun cursor => { cursor with index := move cursor.index } }

/-- The container with nodes put in at an index. -/
def splice (index : Nat) (nodes : List NodeId) (cell : Cell) : Cell :=
  { cell with children := cell.children.take index ++ nodes ++ cell.children.drop index }

/-- The container without the child at an index. -/
def erase (index : Nat) (cell : Cell) : Cell :=
  { cell with children := cell.children.eraseIdx index }

end Cell

namespace Forest

/-- Takes a child out of a container.  A cursor at the child or after it goes
back by one. -/
def removeChild (container child : NodeId) : Edit Unit := do
  let index ← Edit.ask fun forest => forest.indexOf container child
  Edit.change container fun cell =>
    (cell.erase index).moveCursors fun cursor =>
      if (index : Int) ≤ cursor then cursor - 1 else cursor
  Edit.change child fun cell => { cell with parent := none }

/-- Takes a node out of where it is. -/
def remove (id : NodeId) : Edit Unit := do
  match (← get).parent? id with
  | none => return ()
  | some parent => removeChild parent id

/-- A node must not be put into a container that it is or that is below it. -/
def mayAdopt (forest : Forest) (container id : NodeId) : Bool :=
  !(id == container ||
    ((forest.cell id).kind.isContainer && forest.isAbove id forest.size container))

/-- Takes one node for a container. -/
def adoptOne (container id : NodeId) : Edit Unit := do
  if (← get).mayAdopt container id then
    remove id
    let file := ((← get).cell container).source
    Edit.change id fun cell =>
      { cell with parent := some container, source := cell.source.or file }
  else throw .ownSubtree

/-- Takes nodes for a container, one after another. -/
def adopt (container : NodeId) : List NodeId → Edit Unit
  | [] => pure ()
  | id :: ids => do
      adoptOne container id
      adopt container ids

/-- Puts nodes at the end of a container. -/
def append (container : NodeId) (nodes : List NodeId) : Edit Unit := do
  adopt container nodes
  Edit.change container fun cell => { cell with children := cell.children ++ nodes }

/-- Puts nodes at the start of a container.  Every cursor goes on by their
number. -/
def prepend (container : NodeId) (nodes : List NodeId) : Edit Unit := do
  adopt container nodes
  Edit.change container fun cell => (cell.splice 0 nodes).moveCursors (· + nodes.length)

/-- Puts nodes before a child.  A cursor at the child or after it goes on by
their number. -/
def insertBefore (container existing : NodeId) (nodes : List NodeId) : Edit Unit := do
  adopt container nodes
  let index ← Edit.ask fun forest => forest.indexOf container existing
  Edit.change container fun cell =>
    (cell.splice index nodes).moveCursors fun cursor =>
      if (index : Int) ≤ cursor then cursor + nodes.length else cursor

/-- Puts nodes after a child.  A cursor after the child goes on by their
number. -/
def insertAfter (container existing : NodeId) (nodes : List NodeId) : Edit Unit := do
  adopt container nodes
  let index ← Edit.ask fun forest => forest.indexOf container existing
  Edit.change container fun cell =>
    (cell.splice (index + 1) nodes).moveCursors fun cursor =>
      if (index : Int) < cursor then cursor + nodes.length else cursor

/-- The parent of a node that has to have one. -/
def requireParent (id : NodeId) : Edit NodeId :=
  Edit.ask fun forest =>
    match forest.parent? id with
    | some parent => .ok parent
    | none => .error (.noParent (forest.kindName id))

/-- Puts nodes before a node. -/
def before (id : NodeId) (nodes : List NodeId) : Edit Unit := do
  insertBefore (← requireParent id) id nodes

/-- Puts nodes after a node. -/
def after (id : NodeId) (nodes : List NodeId) : Edit Unit := do
  insertAfter (← requireParent id) id nodes

/-- Puts nodes in the place of a node. -/
def replaceWith (id : NodeId) (nodes : List NodeId) : Edit Unit := do
  let parent ← requireParent id
  insertBefore parent id nodes
  removeChild parent id

/-- Makes a node without children and with nothing around it. -/
def create (kind : Kind) (source : Option String) : Edit NodeId := do
  let id := (← get).size
  modify fun forest => forest.add { kind, source }
  return id

/-- Makes a node and puts existing nodes into it. -/
def createWith (kind : Kind) (source : Option String) (nodes : List NodeId) : Edit NodeId := do
  let id ← create kind source
  append id nodes
  return id

mutual
/-- Puts a tree into the forest. -/
def plant : Node → Edit NodeId
  | .leaf source content => create (.leaf content) source
  | .block source head _ children => do
      let nodes ← plantAll children
      createWith (.block head) source nodes
/-- Puts trees into the forest. -/
def plantAll : List Node → Edit (List NodeId)
  | [] => pure []
  | node :: nodes => do
      let first ← plant node
      let others ← plantAll nodes
      return first :: others
end

/-! ## Attributes and copies -/

/-- Assigns a value to an attribute of a node.  A link can only be cut, and under a
name that the node has no attribute of nothing is ever looked up. -/
def assign (id : NodeId) (name : String) (value : FieldValue) : Edit Unit := do
  if name == "parent" && value == .none then
    Edit.change id fun cell => { cell with parent := none }
  else
    let cell := (← get).cell id
    match overwrite cell.kindName cell name value with
    | .ok changed => Edit.change id fun _ => changed
    | .error (.cannotOverride _ _) => return ()
    | .error error => throw error

/-- Overwrites attributes of a copy of a node of the given name, one after
another. -/
def override (kindName : String) (id : NodeId) : List (String × FieldValue) → Edit Unit
  | [] => pure ()
  | (name, value) :: overrides => do
      match overwrite kindName ((← get).cell id) name value with
      | .ok changed =>
          Edit.change id fun _ => changed
          override kindName id overrides
      | .error error => throw error

/-- Copies a node with all below it, to as many levels as given.  The copy has
no parent. -/
def copyTo : Nat → NodeId → Edit NodeId
  | 0, _ => throw .unsupported
  | levels + 1, id => do
      let cell := (← get).cell id
      match cell.kind with
      | .generic | .container => throw .unsupported
      | .leaf content => create (.leaf content) cell.source
      | .block head => do
          let copies ← cell.children.mapM (copyTo levels)
          createWith (.block head) cell.source copies

/-- Copies a node with all below it and overwrites attributes of the copy. -/
def clone (id : NodeId) (overrides : List (String × FieldValue)) : Edit NodeId := do
  let copy ← copyTo ((← get).size + 1) id
  override ((← get).kindName id) copy overrides
  return copy

end Forest

end ContainerPreview
