import ContainerPreview.Proofs.Toggle.Height

/-!
# Walks over the nodes of a block

A walk deals with the nodes of a block one after another, and what it makes of
one node does not depend on the others.  It changes nothing below a block whose
children are leaves, nor in a media or container block all of whose media blocks
are marked.

The whole run is the walk over the nodes of the sheet, with the context rule in
front of them if one is added.
-/

namespace ContainerPreview

/-! ## Lists of leaves -/

/-- A rule with leaves as children has a variant with leaves as children. -/
theorem isLeaf_of_mem_nodesVariant {converter : Converter} {fixed : Bool} {file : Option String}
    {nodes : List Node} (leaves : ∀ node ∈ nodes, node.isLeaf) :
    ∀ node ∈ (nodesVariant converter fixed file nodes).value.nodes, node.isLeaf := by
  have flat : heightIn nodes ≤ 0 := by
    refine heightIn_le_iff.mpr fun node member => ?_
    have isLeaf := leaves node member
    cases node with
    | leaf => simp
    | block => cases isLeaf
  rw [← heightIn_nodesVariant converter fixed file nodes, heightIn_le_iff] at flat
  intro node member
  cases node with
  | leaf => rfl
  | block => simpa using flat _ member

namespace Toggle

variable (toggle : Toggle)

/-! ## One node after another -/

/-- What a walk makes of one node of a block: the node visited, with the walk
gone below it and below the nodes put after it. -/
def visitBelow (below : Place → Node → Traced Node) (place : Place) (node : Node) :
    Traced (List Node) := do
  let visited ← toggle.visit place node
  let first ← below place visited.node
  let added ← visited.after.mapM (below place)
  return first :: added

theorem value_visitBelow (below : Place → Node → Traced Node) (place : Place) (node : Node) :
    (toggle.visitBelow below place node).value =
      (below place (toggle.visit place node).value.node).value ::
        (toggle.visit place node).value.after.map fun added => (below place added).value := by
  simp [visitBelow]

@[simp]
theorem walkNodes_nil (below : Place → Node → Traced Node) (place : Place) :
    toggle.walkNodes below place [] = pure [] :=
  rfl

theorem value_walkNodes_cons (below : Place → Node → Traced Node) (place : Place) (node : Node)
    (nodes : List Node) :
    (toggle.walkNodes below place (node :: nodes)).value =
      (toggle.visitBelow below place node).value ++
        (toggle.walkNodes below place nodes).value := by
  simp [walkNodes, visitBelow]

theorem events_walkNodes_cons (below : Place → Node → Traced Node) (place : Place) (node : Node)
    (nodes : List Node) :
    (toggle.walkNodes below place (node :: nodes)).events =
      (toggle.visitBelow below place node).events ++
        (toggle.walkNodes below place nodes).events := by
  simp [walkNodes, visitBelow]

theorem value_walkNodes_append (below : Place → Node → Traced Node) (place : Place)
    (left right : List Node) :
    (toggle.walkNodes below place (left ++ right)).value =
      (toggle.walkNodes below place left).value ++ (toggle.walkNodes below place right).value := by
  induction left with
  | nil => simp
  | cons node rest inductionHypothesis =>
      rw [List.cons_append, value_walkNodes_cons, value_walkNodes_cons, inductionHypothesis,
        List.append_assoc]

/-- The walk over one node does not depend on a bound that is at least its
height. -/
theorem visitBelow_eq_of_height_le {levels : Nat} (place : Place) {node : Node}
    (within : node.height ≤ levels) :
    toggle.visitBelow (toggle.walkBelow levels) place node =
      toggle.visitBelow (toggle.walkBelow node.height) place node := by
  rcases toggle.height_visit_le place node with ⟨nodeLe, afterLe⟩
  have same : ∀ other : Node, other.height ≤ node.height →
      toggle.walkBelow levels place other = toggle.walkBelow node.height place other := by
    intro other otherLe
    rw [toggle.walkBelow_eq_of_height_le place (Nat.le_trans otherLe within),
      toggle.walkBelow_eq_of_height_le place otherLe]
  have sameAfter : (toggle.visit place node).value.after.mapM (toggle.walkBelow levels place) =
      (toggle.visit place node).value.after.mapM (toggle.walkBelow node.height place) :=
    Traced.mapM_congr fun added member =>
      same added (Nat.le_trans (height_le_heightIn member) afterLe)
  apply Traced.bind_congr
  rw [same _ nodeLe, sameAfter]

/-- A walk below a block changes only its children. -/
theorem exists_walkBelow_block (levels : Nat) (place : Place) (source : Option String)
    (head : Head) (settled : Bool) (children : List Node) :
    ∃ nodes, (toggle.walkBelow levels place (.block source head settled children)).value =
      .block source head settled nodes := by
  cases levels with
  | zero => exact ⟨children, rfl⟩
  | succ levels => exact ⟨_, rfl⟩

/-- Only rules and media blocks are changed by a visit. -/
theorem visit_other (place : Place) {node : Node} (noRule : node.isRule = false)
    (noMedia : node.isMedia = false) : toggle.visit place node = pure { node } := by
  unfold visit
  split
  · cases noRule
  · cases noMedia
  · rfl

/-! ## Where a walk changes nothing -/

@[simp]
theorem walkBelow_leaf (levels : Nat) (place : Place) (source : Option String) (content : Leaf) :
    toggle.walkBelow levels place (.leaf source content) = pure (.leaf source content) := by
  cases levels <;> rfl

/-- In a media or container block with all its media blocks marked a walk
changes nothing. -/
theorem walkNodes_of_mediaSettled {place : Place} (insideQuery : place.insideQuery = true)
    (levels : Nat) {nodes : List Node} (settledMedia : MediaSettled nodes) :
    toggle.walkNodes (toggle.walkBelow levels) place nodes = pure nodes := by
  induction nodes using forest_induction generalizing levels place with
  | nil => rfl
  | leaf source content rest ofRest =>
      simp only [mediaSettled_leaf] at settledMedia
      simp [walkNodes, visit, ofRest insideQuery levels settledMedia]
  | block source head settled children rest ofChildren ofRest =>
      rcases mediaSettled_block.mp settledMedia with ⟨ownSettled, childrenSettled, restSettled⟩
      have visited : toggle.visit place (.block source head settled children) =
          pure { node := .block source head settled children } := by
        unfold visit
        split
        · simp_all [visitRule]
        · simp_all [Head.isMedia]
        · rfl
      have walked : toggle.walkBelow levels place (.block source head settled children) =
          pure (.block source head settled children) := by
        cases levels with
        | zero => rfl
        | succ levels =>
            simp only [walkBelow]
            rw [ofChildren (by simp [Place.within, insideQuery]) levels childrenSettled]
            simp
      simp [walkNodes, visited, walked, ofRest insideQuery levels restSettled]

theorem walkNodes_of_leaves (levels : Nat) (place : Place) {nodes : List Node}
    (leaves : ∀ node ∈ nodes, node.isLeaf) :
    toggle.walkNodes (toggle.walkBelow levels) place nodes = pure nodes := by
  induction nodes, leaves using leaves_induction with
  | nil => rfl
  | leaf source content rest leaves ofRest => simp [walkNodes, visit, ofRest]

theorem walkBelow_of_leaves (levels : Nat) (place : Place) (source : Option String) (head : Head)
    (settled : Bool) {children : List Node} (leaves : ∀ child ∈ children, child.isLeaf) :
    toggle.walkBelow levels place (.block source head settled children) =
      pure (.block source head settled children) := by
  cases levels with
  | zero => rfl
  | succ levels => simp [walkBelow, toggle.walkNodes_of_leaves levels _ leaves]

/-! ## The whole run -/

/-- The context rule as the pass puts it in front of the nodes of a sheet, if it
does. -/
def neededContext (source : Option String) (nodes : List Node) : List Node :=
  if hasFixedPosition nodes && !toggle.hasContextRule nodes then [toggle.contextRule source] else []

/-- There are only leaves in the context rule. -/
theorem heightIn_neededContext_le (source : Option String) (nodes : List Node) :
    heightIn (toggle.neededContext source nodes) ≤ 1 := by
  unfold neededContext
  split
  · simp [contextRule]
  · exact Nat.zero_le 1

end Toggle

namespace Pass

theorem value_addContext (toggle : Toggle) (source : Option String) (head : Head) (settled : Bool)
    (children : List Node) :
    (addContext { toggle, tree := .block source head settled children }).value =
      { toggle, hasContext := hasFixedPosition children,
        tree := .block source head settled (toggle.neededContext source children ++ children) } := by
  by_cases fixed : hasFixedPosition children
  · by_cases present : toggle.hasContextRule children <;>
      simp [addContext, Toggle.neededContext, Node.children, Node.withChildren, Node.source, fixed,
        present]
  · simp [addContext, Toggle.neededContext, Node.children, fixed]

theorem events_addContext (toggle : Toggle) (source : Option String) (head : Head) (settled : Bool)
    (children : List Node) :
    (addContext { toggle, tree := .block source head settled children }).events =
      if (toggle.neededContext source children).isEmpty then []
      else [.note "Added container context rule" source] := by
  by_cases fixed : hasFixedPosition children
  · by_cases present : toggle.hasContextRule children <;>
      simp [addContext, Toggle.neededContext, Node.children, Node.source, fixed, present]
  · simp [addContext, Toggle.neededContext, Node.children, fixed]

end Pass

/-- A walk over all levels of some nodes that stand directly below the top. -/
def Toggle.walkAll (toggle : Toggle) (place : Place) (nodes : List Node) : Traced (List Node) :=
  toggle.walkNodes (toggle.walkBelow (heightIn nodes)) place nodes

/-- The walk over some nodes does not depend on a bound that is at least their height. -/
theorem Toggle.walkNodes_eq_walkAll (toggle : Toggle) {levels : Nat} (place : Place)
    {nodes : List Node} (within : heightIn nodes ≤ levels) :
    toggle.walkNodes (toggle.walkBelow levels) place nodes = toggle.walkAll place nodes := by
  refine toggle.walkNodes_congr (fun place node lower => ?_) place (Nat.le_refl _)
  rw [toggle.walkBelow_eq_of_height_le place (Nat.le_trans lower within),
    toggle.walkBelow_eq_of_height_le place lower]

/-- The nodes that a run walks over: those of the sheet without marks, and the
context rule in front of them if it is needed. -/
def Toggle.preparedNodes (toggle : Toggle) (source : Option String) (children : List Node) :
    List Node :=
  toggle.neededContext source (clearMarksIn children) ++ clearMarksIn children

theorem value_runToggle (options : Options) (source : Option String) (head : Head) (settled : Bool)
    (children : List Node) :
    (runToggle options (.block source head settled children)).value =
      .block source head false (clearMarksIn
        ((Toggle.ofOptions options).walkAll (Place.outside.within source head)
          ((Toggle.ofOptions options).preparedNodes source children)).value) := by
  simp only [runToggle, Pass.run, Pass.walk, Pass.finish, Node.clearMarks, Traced.value_bind,
    Traced.value_pure, Pass.value_addContext, Toggle.walk, height_block, Toggle.walkBelow,
    Toggle.walkAll, Toggle.preparedNodes]

theorem events_runToggle (options : Options) (source : Option String) (head : Head)
    (settled : Bool) (children : List Node) :
    (runToggle options (.block source head settled children)).events =
      (Pass.addContext { toggle := .ofOptions options,
                         tree := .block source head false (clearMarksIn children) }).events ++
        ((Toggle.ofOptions options).walkAll (Place.outside.within source head)
          ((Toggle.ofOptions options).preparedNodes source children)).events ++ [.passEnded] := by
  simp [runToggle, Pass.run, Pass.walk, Pass.finish, Node.clearMarks, Pass.value_addContext,
    Toggle.walk, Toggle.walkBelow, Toggle.walkAll, Toggle.preparedNodes]

end ContainerPreview
