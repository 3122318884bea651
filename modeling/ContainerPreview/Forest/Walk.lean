import ContainerPreview.Forest.Edit

/-!
# Walking over a forest that changes

A walk visits the children of a container, or all nodes below it, and the
visitor may edit the forest at every visit.  The walk keeps its place by a
cursor: what is put in behind the cursor is visited, what is put in at it or in
front of it is not, and nothing is visited twice because something before it
was removed.

A visitor can make a walk go on for ever by putting in something new at every
visit, so a walk gets a bound on its steps and can also end by using it up.
-/

namespace ContainerPreview

namespace Cell

/-- The container with a cursor at its first child. -/
def openCursor (key : Nat) (cell : Cell) : Cell :=
  { cell with cursors := { key, index := 0 } :: cell.cursors }

/-- The container without a cursor. -/
def closeCursor (key : Nat) (cell : Cell) : Cell :=
  { cell with cursors := cell.cursors.filter fun cursor => cursor.key != key }

/-- The container with one cursor moved to the next child. -/
def advanceCursor (key : Nat) (cell : Cell) : Cell :=
  { cell with
    cursors := cell.cursors.map fun cursor =>
      if cursor.key == key then { cursor with index := cursor.index + 1 } else cursor }

end Cell

namespace Forest

/-- What a visitor works on: the forest and a state of its own. -/
abbrev Visited (σ : Type) := Forest × σ

/-- What a visitor says. -/
inductive Reply where
  | goOn
  | stop
deriving DecidableEq, Repr, Inhabited

/-- How a walk ends: after the last node, stopped by its visitor, or out of
steps. -/
inductive WalkEnd where
  | finished
  | stopped
  | exhausted
deriving DecidableEq, Repr, Inhabited

/-- A visitor, given the node it is at. -/
abbrev Visitor (σ : Type) := NodeId → Visited σ → Reply × Visited σ

variable {σ : Type}

/-- The index that a cursor is at. -/
def cursorIndex (forest : Forest) (container : NodeId) (key : Nat) : Nat :=
  (((forest.cell container).cursors.find? fun cursor => cursor.key == key).map
    fun cursor => cursor.index.toNat).getD 0

/-- Visits the children of a container from a cursor on. -/
def eachFrom (visit : NodeId → Visited σ → WalkEnd × Visited σ) (container : NodeId) (key : Nat) :
    Nat → Visited σ → WalkEnd × Visited σ
  | 0, state => (.exhausted, state)
  | steps + 1, state =>
      match (state.1.children container)[state.1.cursorIndex container key]? with
      | none => (.finished, state)
      | some child =>
          match visit child state with
          | (.finished, forest, own) =>
              let advanced := forest.update container (Cell.advanceCursor key)
              eachFrom visit container key steps (advanced, own)
          | ended => ended

/-- Visits the children of a container with a cursor of its own. -/
def eachWith (visit : NodeId → Visited σ → WalkEnd × Visited σ) (steps : Nat)
    (container : NodeId) (state : Visited σ) : WalkEnd × Visited σ :=
  let key := state.1.nextKey
  let opened := { state.1 with nextKey := key + 1 }.update container (Cell.openCursor key)
  let (ended, forest, own) := eachFrom visit container key steps (opened, state.2)
  (ended, forest.update container (Cell.closeCursor key), own)

/-- How a single visit ends. -/
def visitOnce (visitor : Visitor σ) (id : NodeId) (state : Visited σ) : WalkEnd × Visited σ :=
  let (reply, state) := visitor id state
  (if reply = .stop then .stopped else .finished, state)

/-- Visits the children of a container. -/
def each (visitor : Visitor σ) (steps : Nat) (container : NodeId) (state : Visited σ) :
    WalkEnd × Visited σ :=
  eachWith (visitOnce visitor) steps container state

/-- Visits all nodes below a container, each before those below it.  A node that
has been taken out by its visit is still entered. -/
def walk (visitor : Visitor σ) : Nat → NodeId → Visited σ → WalkEnd × Visited σ
  | 0, _, state => (.exhausted, state)
  | steps + 1, container, state =>
      eachWith
        (fun id state =>
          match visitOnce visitor id state with
          | (.finished, state) =>
              if (state.1.cell id).kind.isContainer then walk visitor steps id state
              else (.finished, state)
          | ended => ended)
        (steps + 1) container state

/-- A visitor that is only asked about some kinds of node. -/
def Visitor.only (admits : Kind → Bool) (visitor : Visitor σ) : Visitor σ := fun id state =>
  if admits (state.1.cell id).kind then visitor id state else (.goOn, state)

/-- A rule. -/
def isRule : Kind → Bool
  | .block (.rule _) => true
  | _ => false

/-- A declaration, of the given property if there is one. -/
def isDeclaration (property : Option String) : Kind → Bool
  | .leaf (.declaration content) => property.all (content.property == ·)
  | _ => false

/-- An at-rule, of the given name if there is one. -/
def isAtRule (name : Option String) : Kind → Bool
  | .block (.atRule own _ _) => name.all (own == ·)
  | _ => false

end Forest

end ContainerPreview
