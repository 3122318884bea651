import ContainerPreview.Report.Reporter
import ContainerPreview.Transform.Toggle.Media

/-!
# The toggle pass

A pass goes over the tree from the top, visiting every node before the nodes
below it.  A visit changes a node and what is below it and puts nodes right
after it; these are marked as done, but the nodes below them are visited as
well.  Before that, the pass puts a rule for the container element in front of
a sheet that has a fixed position anywhere, so that sticky positions have a
container to refer to.

A whole run starts from a tree without marks.  It goes over as many levels as
the tree has, since no visit makes the tree higher.
-/

namespace ContainerPreview

namespace Toggle

/-! ## Visits -/

/-- Visits a rule: forks it unless it is done, stands where rules are treated by
the block around them, or is guarded already. -/
def visitRule (toggle : Toggle) (place : Place) (source : Option String) (selector : String)
    (settled : Bool) (children : List Node) : Traced Visit :=
  if settled || place.insideQuery || place.inKeyframes then
    pure { node := .block source (.rule selector) settled children }
  else if toggle.isGuarded selector then
    pure { node := .block source (.rule selector) true children }
  else do
    let fork ← toggle.forkRule place.around source selector children
    return { node := .block source (.rule fork.selector) true children, after := fork.variants }

/-- Visits a node. -/
def visit (toggle : Toggle) (place : Place) (node : Node) : Traced Visit :=
  match node with
  | .block source (.rule selector) settled children =>
      toggle.visitRule place source selector settled children
  | .block source (.atRule "media" params hasBlock) false children =>
      toggle.visitMedia place.around source params hasBlock children
  | node => pure { node }

/-! ## Walks -/

/-- Goes over the nodes of a block: visits each, then goes below it and below
the nodes put after it. -/
def walkNodes (toggle : Toggle) (below : Place → Node → Traced Node) (place : Place) :
    List Node → Traced (List Node)
  | [] => pure []
  | node :: nodes => do
      let visited ← toggle.visit place node
      let first ← below place visited.node
      let added ← visited.after.mapM (below place)
      let others ← walkNodes toggle below place nodes
      return first :: added ++ others

/-- Goes over what is below a node, to the given number of levels. -/
def walkBelow (toggle : Toggle) : Nat → Place → Node → Traced Node
  | 0, _, node => pure node
  | _, _, .leaf source content => pure (.leaf source content)
  | levels + 1, place, .block source head settled children => do
      let children ← walkNodes toggle (walkBelow toggle levels) (place.within source head) children
      return .block source head settled children

/-- Goes over all that is below the top of a tree. -/
def walk (toggle : Toggle) (tree : Node) : Traced Node :=
  toggle.walkBelow tree.height .outside tree

/-- The nodes of a block with the one at a path visited, and with the nodes put
after it.  A path that leads nowhere visits nothing. -/
def visitAt (toggle : Toggle) (place : Place) : List Nat → List Node → Traced (List Node)
  | [], nodes => pure nodes
  | index :: path, nodes =>
      match nodes[index]?, path with
      | none, _ => pure nodes
      | some node, [] => do
          let visited ← toggle.visit place node
          return nodes.take index ++ visited.node :: visited.after ++ nodes.drop (index + 1)
      | some (.leaf _ _), _ => pure nodes
      | some (.block source head settled children), path => do
          let children ← visitAt toggle (place.within source head) path children
          return nodes.set index (.block source head settled children)

/-! ## The context rule -/

/-- The rule for the container element that sticky positions refer to. -/
def contextRule (toggle : Toggle) (source : Option String) : Node :=
  .block source (.rule toggle.previewGuard) true
    [.leaf source (.declaration { property := "position", value := "relative" }),
      .leaf source (.declaration { property := "contain", value := "layout" })]

/-- A rule of the sheet is on the container element in the preview already. -/
def hasContextRule (toggle : Toggle) (nodes : List Node) : Bool :=
  nodes.any fun node => node.selector? == some toggle.previewGuard

end Toggle

/-- A pass under way: the tree, and whether the context rule is there or need
not be looked for again. -/
structure Pass where
  toggle : Toggle
  tree : Node
  hasContext : Bool := false

namespace Pass

/-- Puts the context rule in front of the sheet if it is needed and missing. -/
def addContext (pass : Pass) : Traced Pass :=
  if pass.hasContext || !hasFixedPosition pass.tree.children then pure pass
  else if pass.toggle.hasContextRule pass.tree.children then
    pure { pass with hasContext := true }
  else do
    let source := pass.tree.source
    .emit (.note "Added container context rule" source)
    let children := pass.toggle.contextRule source :: pass.tree.children
    return { pass with tree := pass.tree.withChildren children, hasContext := true }

/-- Goes over the tree. -/
def walk (pass : Pass) : Traced Pass := do
  let tree ← pass.toggle.walk pass.tree
  return { pass with tree }

/-- Ends the pass. -/
def finish (pass : Pass) : Traced Pass := do
  .emit .passEnded
  return pass

/-- Visits the node at a path below the top. -/
def visitAt (pass : Pass) (path : List Nat) : Traced Pass :=
  match pass.tree with
  | .leaf _ _ => pure pass
  | .block source head settled children => do
      let place := Place.outside.within source head
      let children ← pass.toggle.visitAt place path children
      return { pass with tree := .block source head settled children }

/-- The whole pass. -/
def run (pass : Pass) : Traced Pass := do
  let pass ← pass.addContext
  let pass ← pass.walk
  pass.finish

end Pass

/-- Runs the toggle over a tree without marks and gives one without marks. -/
def runToggle (options : Options) (tree : Node) : Traced Node := do
  let pass ← Pass.run { toggle := .ofOptions options, tree := tree.clearMarks }
  return pass.tree.clearMarks

end ContainerPreview
