import ContainerPreview.Transform.Toggle.Rule

/-!
# Translating media blocks

A media block gets a container block after it that holds converted copies of its
rules, while its own rules are scoped to the viewport.  Media blocks directly in
it are treated along with it: each block of the nest whose conditions can hold
gives one container block, under the conditions of all blocks around it.  A
block under no condition at all has its rules forked where they are.

What a block holds besides media blocks and keyframes is treated as a whole:
its rules, and the at-rules that have rules in them.  Keyframes keep their
selectors everywhere.
-/

namespace ContainerPreview

/-! ## Rules below a node -/

mutual
/-- The node is, or has below it, a rule that is not directly in keyframes.  The
flag tells whether the node itself is. -/
def Node.hasFreeRule (inKeyframes : Bool) : Node → Bool
  | .leaf _ _ => false
  | .block _ (.rule _) _ children => !inKeyframes || anyFreeRule false children
  | .block _ head _ children => anyFreeRule head.isKeyframes children
/-- One of the nodes is or has such a rule. -/
def anyFreeRule (inKeyframes : Bool) : List Node → Bool
  | [] => false
  | node :: nodes => node.hasFreeRule inKeyframes || anyFreeRule inKeyframes nodes
end

/-- The node is treated as a whole in the media block it stands in. -/
def Node.isTreated : Node → Bool
  | .leaf _ _ => false
  | .block _ (.rule _) _ _ => true
  | .block _ .sheet _ _ => false
  | .block _ (.atRule name params hasBlock) _ children =>
      let head := Head.atRule name params hasBlock
      !head.isMedia && !head.isKeyframes && anyFreeRule false children

mutual
/-- The node with every media block in it marked. -/
def Node.settleMedia : Node → Node
  | .leaf source content => .leaf source content
  | .block source head settled children =>
      .block source head (settled || head.isMedia) (settleMediaIn children)
/-- The nodes with every media block in them marked. -/
def settleMediaIn : List Node → List Node
  | [] => []
  | node :: nodes => node.settleMedia :: settleMediaIn nodes
end

namespace Toggle

/-! ## Scoping the rules of a block to the viewport -/

mutual
/-- The node with its rules scoped to the viewport and marked. -/
def scopeNode (toggle : Toggle) (inKeyframes : Bool) : Node → Node
  | .leaf source content => .leaf source content
  | .block source (.rule selector) settled children =>
      if inKeyframes then .block source (.rule selector) settled (scopeNodes toggle false children)
      else
        .block source (.rule (toggle.scopeUnguarded selector)) true
          (scopeNodes toggle false children)
  | .block source head settled children =>
      .block source head settled (scopeNodes toggle head.isKeyframes children)
/-- The nodes with their rules scoped to the viewport and marked. -/
def scopeNodes (toggle : Toggle) (inKeyframes : Bool) : List Node → List Node
  | [] => []
  | node :: nodes => scopeNode toggle inKeyframes node :: scopeNodes toggle inKeyframes nodes
end

/-- A treated node with its rules scoped to the viewport.  Of a rule only the
rule itself is scoped, not what is nested in it. -/
def scopeTreated (toggle : Toggle) (node : Node) : Node :=
  match node with
  | .block source (.rule selector) _ children =>
      .block source (.rule (toggle.scopeUnguarded selector)) true children
  | node => toggle.scopeNode false node

/-! ## Forking the rules of a block in place -/

/-- A rule forked where it is, with what has become of its children. -/
def forkedRule (fork : Fork) (source : Option String) (children : List Node) : List Node :=
  .block source (.rule fork.selector) true children :: fork.variants

mutual
/-- The nodes that a node becomes if its rules are forked where they are.  Rules
that are marked already stay as they are. -/
def forkNode (toggle : Toggle) (inKeyframes : Bool) (around : Option String) :
    Node → Traced (List Node)
  | .leaf source content => pure [.leaf source content]
  | .block source (.rule selector) settled children => do
      if inKeyframes || settled then
        let children ← forkNodes toggle false source children
        return [.block source (.rule selector) settled children]
      else
        let fork ← toggle.forkRule around source selector children
        let children ← forkNodes toggle false source children
        return forkedRule fork source children
  | .block source head settled children => do
      let children ← forkNodes toggle head.isKeyframes source children
      return [.block source head settled children]
/-- The nodes that a list of nodes becomes. -/
def forkNodes (toggle : Toggle) (inKeyframes : Bool) (around : Option String) :
    List Node → Traced (List Node)
  | [] => pure []
  | node :: nodes => do
      let first ← forkNode toggle inKeyframes around node
      let others ← forkNodes toggle inKeyframes around nodes
      return first ++ others
end

/-- What a treated node becomes if its rules are forked where they are.  Of a
rule only the rule itself is forked, not what is nested in it. -/
def forkTreated (toggle : Toggle) (around : Option String) (node : Node) : Traced (List Node) :=
  match node with
  | .block source (.rule selector) settled children => do
      if settled then return [node]
      else
        let fork ← toggle.forkRule around source selector children
        return forkedRule fork source children
  | node => toggle.forkNode false around node

/-! ## Copies for the container block -/

/-- A copied node converted for the preview, given how the children of a block
are once the block itself has been converted.  A rule directly in keyframes is
left to `enter` alone. -/
def convertCopy (toggle : Toggle) (enter : Bool → List Node → Traced (List Node))
    (inKeyframes : Bool) (node : Node) : Traced Node :=
  match node with
  | .leaf source content => pure (.leaf source content)
  | .block source (.rule selector) settled children =>
      if inKeyframes then do
        let children ← enter false children
        return .block source (.rule selector) settled children
      else do
        let children ← toggle.variantChildren source children
        let children ← enter false children
        return .block source (.rule (toggle.placeInPreview selector)) true children
  | .block source head settled children => do
      let children ← enter head.isKeyframes children
      return .block source head settled children

/-- Copied nodes with their rules converted for the preview, to the given
number of levels.  A rule is converted with all that is nested in it before the
rules nested in it are. -/
def convertCopies (toggle : Toggle) : Nat → Bool → List Node → Traced (List Node)
  | 0, _, nodes => pure nodes
  | levels + 1, inKeyframes, nodes =>
      nodes.mapM (toggle.convertCopy (convertCopies toggle levels) inKeyframes)

/-- The copy of a treated node for the container block.  Of a rule only the rule
itself is placed in the preview, not what is nested in it. -/
def previewCopy (toggle : Toggle) (node : Node) : Traced (List Node) :=
  match node.copy with
  | .block source (.rule selector) _ children => do
      let children ← toggle.variantChildren source children
      return [.block source (.rule (toggle.placeInPreview selector)) true children]
  | copy => toggle.convertCopies copy.height false [copy]

/-! ## Media blocks -/

/-- What treating nodes of a media block gives: what the nodes become, the
events of reading conditions, the copies for the container block, and the
container blocks of the media blocks among them.  Events of treating are kept
apart from those of reading, which all come first, and the events of a block
itself from those of the blocks in it. -/
structure Treatment where
  nodes : List Node := []
  readings : List Event := []
  copies : List Node := []
  events : List Event := []
  containers : List Node := []
  innerEvents : List Event := []

namespace Treatment

/-- Two treatments, one after the other. -/
def append (left right : Treatment) : Treatment :=
  { nodes := left.nodes ++ right.nodes, readings := left.readings ++ right.readings,
    copies := left.copies ++ right.copies, events := left.events ++ right.events,
    containers := left.containers ++ right.containers,
    innerEvents := left.innerEvents ++ right.innerEvents }

/-- A node that is left as it is. -/
def keep (node : Node) : Treatment :=
  { nodes := [node] }

/-- The container block of the copies, in front of those of inner blocks.
Without copies there is none. -/
def allContainers (treatment : Treatment) (conditions : List String) : List Node :=
  if treatment.copies.isEmpty then treatment.containers
  else
    .block none (.atRule "container" (String.intercalate ", " conditions) true) true
      treatment.copies :: treatment.containers

/-- The treatment of the block around the nodes of a treatment, as a part of
the block around it. -/
def ofBlock (treatment : Treatment) (conditions : List String) (source : Option String)
    (head : Head) (readings : List Event) : Treatment :=
  { nodes := [.block source head true treatment.nodes],
    readings := readings ++ treatment.readings,
    containers := treatment.allContainers conditions,
    innerEvents := treatment.events ++ treatment.innerEvents }

end Treatment

/-- The treatment of a treated node under conditions.  It is copied for the
container block and then scoped to the viewport; under no condition, its rules
are forked instead. -/
def treat (toggle : Toggle) (conditions : List String) (around : Option String) (node : Node) :
    Treatment :=
  if conditions.isEmpty then
    let forked := toggle.forkTreated around node
    { nodes := forked.value, events := forked.events }
  else
    let copied := toggle.previewCopy node
    { nodes := [toggle.scopeTreated node], copies := copied.value, events := copied.events }

mutual
/-- The treatment of a node directly in a media block from the file `around`. -/
def treatNode (toggle : Toggle) (conditions : List String) (around : Option String) :
    Node → Treatment
  | .leaf source content => .keep (.leaf source content)
  | .block source head settled children =>
      match head with
      | .atRule "media" params hasBlock =>
          let head := Head.atRule "media" params hasBlock
          let reading := Media.conditions toggle.hook params
          match reading.value with
          | none =>
              { nodes := [.block source head true (settleMediaIn children)],
                readings := reading.events }
          | some inner =>
              let combined := Media.combine conditions inner
              (treatNodes toggle combined source children).ofBlock combined source head
                reading.events
      | head =>
          let node := Node.block source head settled children
          if node.isTreated then toggle.treat conditions around node else .keep node
/-- The treatment of the nodes of a media block. -/
def treatNodes (toggle : Toggle) (conditions : List String) (around : Option String) :
    List Node → Treatment
  | [] => {}
  | node :: nodes =>
      (treatNode toggle conditions around node).append (treatNodes toggle conditions around nodes)
end

/-- What visiting a node makes of it, and the nodes to stand right after it. -/
structure Visit where
  node : Node
  after : List Node := []

/-- Visits a media block: reads its conditions and treats its nodes.  A block
that has been scoped to the viewport before, or that never holds on a screen,
stays as it is; what it holds is not looked at again in the latter case. -/
def visitMedia (toggle : Toggle) (around source : Option String) (params : String)
    (hasBlock : Bool) (children : List Node) : Traced Visit :=
  let head := Head.atRule "media" params hasBlock
  if (selectorsIn children).any fun selector => Text.contains selector toggle.viewportGuard then
    pure { node := .block source head true children }
  else do
    match ← Media.conditions toggle.hook params with
    | none =>
        .emit (.note ("Skipping media query: @media " ++ params) source)
        return { node := .block source head true (settleMediaIn children) }
    | some conditions =>
        .emit .mediaProcessed
        .emit (.note ("Processing media query: @media " ++ params) source)
        let treatment := treatNodes toggle conditions source children
        let events := treatment.readings ++ treatment.events ++ treatment.innerEvents
        Traced.mk () events
        return { node := .block source head true treatment.nodes,
                 after := (treatment.allContainers conditions).map (Node.inherit around) }

end Toggle

end ContainerPreview
