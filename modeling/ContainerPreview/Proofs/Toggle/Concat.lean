import ContainerPreview.Proofs.Toggle.Outside
import Mathlib.Data.List.Basic

/-!
# Sheets put together

What a pass makes of a node at the top of a sheet depends on that node and on
the file of the sheet alone: not on the nodes before and after it, not on what
the pass has done so far, and not on the context rule.  So what it makes of two
lists of nodes together is what it makes of each.
-/

namespace ContainerPreview

namespace Toggle

variable (toggle : Toggle)

theorem value_walkNodes_eq_flatMap (below : Place → Node → Traced Node) (place : Place)
    (nodes : List Node) :
    (toggle.walkNodes below place nodes).value =
      nodes.flatMap fun node => (toggle.visitBelow below place node).value := by
  induction nodes with
  | nil => rfl
  | cons node rest inductionHypothesis =>
      rw [value_walkNodes_cons, inductionHypothesis, List.flatMap_cons]

/-- The share of one node in what a walk over a block leaves: the node and what
is put after it, without marks. -/
def walkShare (place : Place) (node : Node) : List Node :=
  clearMarksIn (toggle.visitBelow (toggle.walkBelow node.height) place node).value

/-- Every node has a share of its own, however far the walk may go. -/
theorem clearMarksIn_walkNodes_eq_flatMap {levels : Nat} (place : Place) {nodes : List Node}
    (within : heightIn nodes ≤ levels) :
    clearMarksIn (toggle.walkNodes (toggle.walkBelow levels) place nodes).value =
      nodes.flatMap (toggle.walkShare place) := by
  rw [value_walkNodes_eq_flatMap, clearMarksIn_flatMap]
  refine List.flatMap_congr fun node member => ?_
  have nodeWithin : node.height ≤ levels := Nat.le_trans (height_le_heightIn member) within
  rw [walkShare, toggle.visitBelow_eq_of_height_le place nodeWithin]

/-- A node with the walk gone below it, without marks. -/
def walkInto (place : Place) (node : Node) : Node :=
  (toggle.walkBelow node.height place node).value.clearMarks

theorem walkInto_block (place : Place) (source : Option String) (head : Head) (settled : Bool)
    (children : List Node) :
    toggle.walkInto place (.block source head settled children) =
      .block source head false
        (children.flatMap (toggle.walkShare (place.within source head))) := by
  rw [walkInto, height_block, walkBelow, Traced.value_bind, Traced.value_pure, Node.clearMarks,
    toggle.clearMarksIn_walkNodes_eq_flatMap _ (Nat.le_refl _)]

/-- The share of a node is the node visited and what is put after it, with the walk
gone below each. -/
theorem walkShare_eq_cons (place : Place) (node : Node) :
    toggle.walkShare place node =
      toggle.walkInto place (toggle.visit place node).value.node ::
        (toggle.visit place node).value.after.map (toggle.walkInto place) := by
  rcases toggle.height_visit_le place node with ⟨nodeLe, afterLe⟩
  rw [walkShare, value_visitBelow, clearMarksIn_eq_map, List.map_cons, List.map_map,
    toggle.walkBelow_eq_of_height_le place nodeLe]
  congr 1
  refine List.map_congr_left fun added member => ?_
  rw [Function.comp_apply, walkInto,
    toggle.walkBelow_eq_of_height_le place (Nat.le_trans (height_le_heightIn member) afterLe)]

theorem walkShare_leaf (place : Place) (source : Option String) (content : Leaf) :
    toggle.walkShare place (.leaf source content) = [.leaf source content] :=
  rfl

/-- Only rules and media blocks are changed by a visit of their own. -/
theorem walkShare_other (place : Place) (source : Option String) (head : Head) (settled : Bool)
    (children : List Node) (noRule : (Node.block source head settled children).isRule = false)
    (noMedia : (Node.block source head settled children).isMedia = false) :
    toggle.walkShare place (.block source head settled children) =
      [.block source head false
        (children.flatMap (toggle.walkShare (place.within source head)))] := by
  rw [walkShare_eq_cons, toggle.visit_other place noRule noMedia, Traced.value_pure,
    walkInto_block, List.map_nil]

end Toggle

/-- What a run makes of the nodes of a sheet, without the context rule that it
puts in front of them. -/
def runBody (options : Options) (source : Option String) (nodes : List Node) : List Node :=
  let context := (Toggle.ofOptions options).addedContext source nodes
  (runToggle options (.block source .sheet false nodes)).value.children.drop context.length

theorem value_runToggle_eq_flatMap (options : Options) (source : Option String) (head : Head)
    (settled : Bool) (nodes : List Node) :
    (runToggle options (.block source head settled nodes)).value =
      .block source head false
        ((Toggle.ofOptions options).addedContext source nodes ++
          (clearMarksIn nodes).flatMap
            ((Toggle.ofOptions options).walkShare (Place.outside.within source head))) := by
  have within : heightIn (clearMarksIn nodes) ≤
      heightIn ((Toggle.ofOptions options).preparedNodes source nodes) := by
    rw [Toggle.preparedNodes, heightIn_append]
    exact Nat.le_max_right _ _
  rw [value_runToggle, Toggle.walkAll]
  generalize heightIn ((Toggle.ofOptions options).preparedNodes source nodes) = levels at within
  rw [Toggle.preparedNodes, Toggle.value_walkNodes_append, clearMarksIn_append,
    Toggle.walkNodes_neededContext, Toggle.clearMarksIn_neededContext,
    Toggle.clearMarksIn_walkNodes_eq_flatMap _ _ within]

theorem runBody_eq_flatMap (options : Options) (source : Option String) (nodes : List Node) :
    runBody options source nodes =
      (clearMarksIn nodes).flatMap
        ((Toggle.ofOptions options).walkShare (Place.outside.within source .sheet)) := by
  rw [runBody, value_runToggle_eq_flatMap, Node.children, List.drop_left]

/-- A run over two lists of nodes together makes of them what it makes of each,
apart from the context rule, which is all that it puts in front. -/
theorem runToggle_append (options : Options) (source : Option String) (left right : List Node) :
    runBody options source (left ++ right) =
        runBody options source left ++ runBody options source right ∧
      ∀ nodes, (runToggle options (.block source .sheet false nodes)).value =
        .block source .sheet false
          ((Toggle.ofOptions options).addedContext source nodes ++
            runBody options source nodes) := by
  constructor
  · rw [runBody_eq_flatMap, clearMarksIn_append, List.flatMap_append, ← runBody_eq_flatMap,
      ← runBody_eq_flatMap]
  · intro nodes
    rw [runBody_eq_flatMap, value_runToggle_eq_flatMap]

end ContainerPreview
