import ContainerPreview.Options
import ContainerPreview.Transform.Toggle.Rule

/-!
# Copying media blocks

This transform leaves declarations alone.  Every media block that is in no other
and has a container query for its conditions is copied as a container block to
the end of the sheet, and the rules of the block itself are limited to the viewport
by a guard that adds nothing to their specificity.
-/

namespace ContainerPreview

/-- The transform that copies media blocks. -/
structure MediaCopy where
  hook : Option Media.Hook := none
  debug : Bool := false
  modifierAttribute : String := defaultModifier

namespace MediaCopy

/-- The guard that limits a selector to the viewport. -/
def guard (transform : MediaCopy) : String :=
  ":where(body:not([" ++ transform.modifierAttribute ++ "]))"

/-- A selector with the guard in place of a `body` that it starts with, or in
front of it. -/
def guardSelector (guard selector : List Char) : List Char :=
  match Text.dropStart? "body".toList selector with
  | some rest => guard ++ rest
  | none => guard ++ ' ' :: selector

/-- A selector list with every selector guarded. -/
def guardList (guard selector : String) : String :=
  String.ofList <| [',', ' '].intercalate <|
    (Selector.selectorsOf selector.toList).map (guardSelector guard.toList)

mutual
/-- The node with all its rules guarded. -/
def guardNode (guard : String) : Node → Node
  | .leaf source content => .leaf source content
  | .block source head settled children =>
      let head :=
        match head with
        | .rule selector => .rule (guardList guard selector)
        | head => head
      .block source head settled (guardNodes guard children)
/-- The nodes with all their rules guarded. -/
def guardNodes (guard : String) : List Node → List Node
  | [] => []
  | node :: nodes => guardNode guard node :: guardNodes guard nodes
end

/-- What copying makes of nodes: the nodes, and the container blocks for the end
of the sheet. -/
structure Copies where
  nodes : List Node
  containers : List Node

mutual
/-- A node with the outermost media blocks in it copied. -/
def copyNode (transform : MediaCopy) : Node → Traced Copies
  | .leaf source content => pure { nodes := [.leaf source content], containers := [] }
  | .block source head settled children =>
      match head with
      | .atRule "media" params hasBlock => do
          let block := Node.block source (.atRule "media" params hasBlock) settled children
          match ← Media.translate transform.hook params with
          | none => return { nodes := [block], containers := [] }
          | some translated =>
              let container :=
                Node.block source (.atRule "container" translated hasBlock) false
                  (copyInto source children)
              return { nodes := [guardNode transform.guard block], containers := [container] }
      | head => do
          let inner ← copyNodes transform children
          return { nodes := [.block source head settled inner.nodes],
                   containers := inner.containers }
/-- Nodes with the outermost media blocks in them copied. -/
def copyNodes (transform : MediaCopy) : List Node → Traced Copies
  | [] => pure { nodes := [], containers := [] }
  | node :: nodes => do
      let first ← copyNode transform node
      let others ← copyNodes transform nodes
      return { nodes := first.nodes ++ others.nodes,
               containers := first.containers ++ others.containers }
end

/-- Applies the transform to a sheet. -/
def apply (transform : MediaCopy) (tree : Node) : Traced Node :=
  match tree with
  | .leaf source content => pure (.leaf source content)
  | .block source head settled children => do
      if head.isMedia then return tree
      else
        let copies ← copyNodes transform children
        return .block source head settled
          (copies.nodes ++ copies.containers.map (Node.inherit source))

end MediaCopy

end ContainerPreview
