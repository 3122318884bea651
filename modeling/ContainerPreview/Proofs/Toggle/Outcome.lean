import ContainerPreview.Proofs.Sheet.Shape
import ContainerPreview.Transform.Toggle.Pass

/-!
# What a pass makes of a sheet

The outcome of a pass, described by one recursion over the tree that was there
before it, without marks, visits or bounds on the depth.

Outside media blocks every node becomes a short list of nodes on its own
account: a rule becomes the rule and perhaps its variant, a block becomes the
same block around the outcome of its children.  A media block becomes itself,
limited to the viewport, and container blocks after it.  The container blocks
belong to the groups of its nest: the block itself and the media blocks directly
in it, each under the conditions of all blocks around it.
-/

namespace ContainerPreview

/-! ## Replacing rules -/

/-- What becomes of a rule, given the file of the block around it, its own file,
its selector list and its children. -/
abbrev RuleChange :=
  Option String → Option String → String → List Node → List Node

mutual
/-- The nodes that a node becomes if `change` is applied to every rule in it
that is not directly in keyframes.  The flag tells whether the node itself is,
and `around` is the file of the block around it. -/
def Node.replaceRules (change : RuleChange) (inKeyframes : Bool) (around : Option String) :
    Node → List Node
  | .leaf source content => [.leaf source content]
  | .block source (.rule selector) settled children =>
      if inKeyframes then [.block source (.rule selector) settled children]
      else change around source selector children
  | .block source head settled children =>
      [.block source head settled (replaceRulesIn change head.isKeyframes source children)]
/-- The nodes that a list of nodes becomes if `change` is applied to its rules. -/
def replaceRulesIn (change : RuleChange) (inKeyframes : Bool) (around : Option String) :
    List Node → List Node
  | [] => []
  | node :: nodes =>
      node.replaceRules change inKeyframes around ++ replaceRulesIn change inKeyframes around nodes
end

namespace Toggle

/-- The children of a rule from the given file as those of its container
variant. -/
def convertedChildren (toggle : Toggle) (source : Option String) (children : List Node) :
    List Node :=
  (processChildren toggle.converter true source (copyInto source children)).value.children

/-- A rule scoped to the viewport. -/
def viewportRule (toggle : Toggle) : RuleChange := fun _ source selector children =>
  [.block source (.rule (Selector.addGuard selector [toggle.viewportGuard])) false children]

/-- A rule that depends on the viewport becomes two: itself scoped to the
viewport, and its variant scoped to the preview.  Another rule stays alone and
goes on to name the container element in both modes. -/
def forkedRules (toggle : Toggle) : RuleChange := fun around source selector children =>
  if needsVariant toggle.converter children then
    [.block source (.rule (Selector.addGuard selector [toggle.viewportGuard])) false children,
      .block (source.or around) (.rule (Selector.addGuard selector [toggle.previewGuard])) false
        (toggle.convertedChildren source children)]
  else
    [.block source
      (.rule (Selector.updateAnchored selector [toggle.viewportGuard, toggle.previewGuard])) false
      children]

/-- A copied rule in a container block. -/
def previewRule (toggle : Toggle) : RuleChange := fun _ source selector children =>
  [.block source (.rule (Selector.updateAnchored selector [toggle.previewGuard])) false
    (processChildren toggle.converter true source children).value.children]

end Toggle

/-! ## The groups of a media nest -/

/-- A media block of a nest: the conditions of all blocks of the nest down to
it, of which one has to hold, and its nodes. -/
structure MediaGroup where
  conditions : List String
  nodes : List Node
deriving DecidableEq, Repr

mutual
/-- The groups of a node in document order, below blocks with the given
conditions.  A media block that never holds on a screen has none, nor has what
stands in it. -/
def Node.mediaGroups (hook : Option Media.Hook) (conditions : List String) :
    Node → List MediaGroup
  | .block _ (.atRule "media" params _) _ children =>
      match (Media.conditions hook params).value with
      | none => []
      | some own =>
          let combined := Media.combine conditions own
          { conditions := combined, nodes := children } :: mediaGroupsIn hook combined children
  | _ => []
/-- The groups of a list of nodes. -/
def mediaGroupsIn (hook : Option Media.Hook) (conditions : List String) :
    List Node → List MediaGroup
  | [] => []
  | node :: nodes => node.mediaGroups hook conditions ++ mediaGroupsIn hook conditions nodes
end

/-- The container block of a group, to stand in a block from the file `around`:
under the conditions of the group, the copies of the nodes that are treated.
Without conditions, or without such nodes, there is none. -/
def MediaGroup.containers (toggle : Toggle) (around : Option String) (group : MediaGroup) :
    List Node :=
  let treated := group.nodes.filter Node.isTreated
  if group.conditions.isEmpty || treated.isEmpty then []
  else
    [.block around (.atRule "container" (String.intercalate ", " group.conditions) true) false
      (treated.flatMap fun node => node.copy.replaceRules toggle.previewRule false none)]

/-- Media blocks stay where they are, with their parameters, and nothing but
container blocks is put after them. -/
def MediaStay (media : Place → Node → List Node) : Prop :=
  ∀ place source params hasBlock settled children, ∃ nodes containers,
    media place (.block source (.atRule "media" params hasBlock) settled children) =
        .block source (.atRule "media" params hasBlock) false nodes :: containers ∧
      ∀ container ∈ containers, container.isContainerBlock

namespace Toggle

mutual
/-- What becomes of a node in a media block under the given conditions.  Its
rules are scoped to the viewport; without conditions they are forked instead.
Keyframes stay as they are, and so do media blocks that never hold on a
screen. -/
def limitNode (toggle : Toggle) (conditions : List String) (around : Option String) :
    Node → List Node
  | .leaf source content => [.leaf source content]
  | .block source head settled children =>
      match head with
      | .atRule "media" params hasBlock =>
          let head := Head.atRule "media" params hasBlock
          match (Media.conditions toggle.hook params).value with
          | none => [.block source head settled children]
          | some own =>
              [.block source head settled
                (limitNodes toggle (Media.combine conditions own) source children)]
      | head =>
          let node := Node.block source head settled children
          if head.isKeyframes then [node]
          else
            node.replaceRules
              (if conditions.isEmpty then toggle.forkedRules else toggle.viewportRule) false around
/-- What becomes of the nodes of a media block. -/
def limitNodes (toggle : Toggle) (conditions : List String) (around : Option String) :
    List Node → List Node
  | [] => []
  | node :: nodes =>
      limitNode toggle conditions around node ++ limitNodes toggle conditions around nodes
end

/-- What becomes of a media block that no other media block is around: the
block limited to the viewport, and the container blocks of its groups. -/
def mediaOutcome (toggle : Toggle) (place : Place) (media : Node) : List Node :=
  toggle.limitNode [] place.around media ++
    (media.mediaGroups toggle.hook []).flatMap (MediaGroup.containers toggle place.around)

/-! ## The whole sheet -/

mutual
/-- What becomes of a node at a place outside media blocks, given what becomes
of media blocks.  Rules in container blocks and directly in keyframes stay as
they are, and so do rules that are guarded already; all others are forked. -/
def outcome (toggle : Toggle) (media : Place → Node → List Node) (place : Place) :
    Node → List Node
  | .leaf source content => [.leaf source content]
  | .block source head settled children =>
      match head with
      | .rule selector =>
          if place.insideQuery || place.inKeyframes || toggle.isGuarded selector then
            [.block source (.rule selector) settled children]
          else toggle.forkedRules place.around source selector children
      | head =>
          if head.isMedia then media place (.block source head settled children)
          else [.block source head settled (outcomes toggle media (place.within source head) children)]
/-- What becomes of the nodes of a block. -/
def outcomes (toggle : Toggle) (media : Place → Node → List Node) (place : Place) :
    List Node → List Node
  | [] => []
  | node :: nodes => outcome toggle media place node ++ outcomes toggle media place nodes
end

/-- The context rule that a pass puts in front of the nodes of a sheet: one if
they have a fixed position anywhere and no rule among them is on the container
element in the preview yet. -/
def addedContext (toggle : Toggle) (source : Option String) (nodes : List Node) : List Node :=
  if hasFixedPosition nodes && !nodes.any (·.selector? == some toggle.previewGuard) then
    [.block source (.rule toggle.previewGuard) false
      [.leaf source (.declaration { property := "position", value := "relative" }),
        .leaf source (.declaration { property := "contain", value := "layout" })]]
  else []

end Toggle

end ContainerPreview
