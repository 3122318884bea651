import ContainerPreview.Proofs.Toggle.Outside
import Mathlib.Data.List.Basic

/-!
# Media blocks of plain sheets

The visit of an outermost media block treats its whole nest at once.  In a plain
sheet without guards, all media blocks of the nest are marked by then, so the
walk leaves the block and the container blocks after it alone, and what the visit
made of them is what `Toggle.mediaOutcome` says.
-/

namespace ContainerPreview

/-! ## The nodes of a media block -/

/-- The nodes of a media block as they are in a plain sheet without marks. -/
structure MediaNodes (nodes : List Node) : Prop where
  flat : FlatRules nodes
  outermost : MediaOutermost nodes
  noSheet : ∀ node ∈ descendantsIn nodes, node.head? ≠ some .sheet
  unmarked : Unmarked nodes

namespace MediaNodes

variable {source : Option String} {head : Head} {settled : Bool} {node : Node}
  {inner rest nodes : List Node}

theorem tail (shape : MediaNodes (node :: rest)) : MediaNodes rest where
  flat := (forall_descendantsIn_cons.mp shape.flat).2
  outermost := (forall_descendantsIn_cons.mp shape.outermost).2
  noSheet := (forall_descendantsIn_cons.mp shape.noSheet).2
  unmarked := (forall_descendantsIn_cons.mp shape.unmarked).2

theorem children (shape : MediaNodes (.block source head settled inner :: rest)) :
    MediaNodes inner where
  flat := (forall_descendantsIn_block.mp shape.flat).2.1
  outermost := (forall_descendantsIn_block.mp shape.outermost).2.1
  noSheet := (forall_descendantsIn_block.mp shape.noSheet).2.1
  unmarked := (forall_descendantsIn_block.mp shape.unmarked).2.1

theorem head_flat (shape : MediaNodes (node :: rest)) : FlatRules [node] :=
  (forall_descendantsIn_cons.mp shape.flat).1

theorem head_unmarked (shape : MediaNodes (node :: rest)) : Unmarked [node] :=
  (forall_descendantsIn_cons.mp shape.unmarked).1

theorem head_noSheet (shape : MediaNodes (node :: rest)) : node.head? ≠ some .sheet :=
  shape.noSheet node (by simp [descendantsIn])

theorem isMedia_of_isTreated (isTreated : node.isTreated) : node.isMedia = false := by
  rcases node with _ | ⟨source, _ | selector | ⟨name, params, hasBlock⟩, settled, children⟩
  · rfl
  · rfl
  · rfl
  · simp only [Node.isTreated, Bool.and_eq_true, Bool.not_eq_true'] at isTreated
    exact isTreated.1.1

/-- A node of another kind is simple. -/
theorem head_simple (shape : MediaNodes (node :: rest)) (isOther : node.isMedia = false) :
    Simple [node] where
  flat := shape.head_flat
  noMedia := by
    rcases node with _ | ⟨source, _ | selector | ⟨name, params, hasBlock⟩, settled, children⟩
    · exact noMedia_leaf.mpr noMedia_nil
    · exact absurd rfl shape.head_noSheet
    · have leaves := (flatRules_rule.mp shape.head_flat).1
      exact noMedia_block.mpr ⟨rfl, noMedia_of_leaves leaves, noMedia_nil⟩
    · have noneBelow : NoMedia children := shape.outermost _ (by simp) rfl isOther
      exact noMedia_block.mpr ⟨isOther, noneBelow, noMedia_nil⟩

/-- The treated nodes of a media block are simple. -/
theorem simple_of_isTreated (shape : MediaNodes nodes) (member : node ∈ nodes)
    (isTreated : node.isTreated) : Simple [node] := by
  induction nodes with
  | nil => cases member
  | cons first rest inductionHypothesis =>
      rcases List.mem_cons.mp member with rfl | later
      · exact shape.head_simple (isMedia_of_isTreated isTreated)
      · exact inductionHypothesis shape.tail later

end MediaNodes

namespace Plain

variable {source : Option String} {head : Head} {settled : Bool} {node : Node}
  {inner rest : List Node}

theorem tail (plain : Plain (node :: rest)) : Plain rest where
  flat := (forall_descendantsIn_cons.mp plain.flat).2
  unburied := (forall_descendantsIn_cons.mp plain.unburied).2
  noSheet := (forall_descendantsIn_cons.mp plain.noSheet).2

theorem children (plain : Plain (.block source head settled inner :: rest)) : Plain inner where
  flat := (forall_descendantsIn_block.mp plain.flat).2.1
  unburied := (forall_descendantsIn_block.mp plain.unburied).2.1
  noSheet := (forall_descendantsIn_block.mp plain.noSheet).2.1

theorem mediaNodes (plain : Plain (.block source head settled inner :: rest))
    (unmarked : Unmarked (.block source head settled inner :: rest)) (isMedia : head.isMedia) :
    MediaNodes inner where
  flat := plain.children.flat
  outermost := plain.unburied (.block source head settled inner) (by simp) isMedia
  noSheet := plain.children.noSheet
  unmarked := (unmarked_block.mp unmarked).2.1

end Plain

theorem Node.mediaGroups_of_not_isMedia (node : Node) (hook : Option Media.Hook)
    (conditions : List String) (isOther : node.isMedia = false) :
    node.mediaGroups hook conditions = [] := by
  unfold Node.mediaGroups
  split
  · simp [Node.isMedia, Node.head?, Head.isMedia] at isOther
  · rfl

namespace Toggle

variable {toggle : Toggle}

/-! ## The nodes of the block -/

theorem limitNodes_cons (conditions : List String) (around : Option String) (node : Node)
    (nodes : List Node) :
    toggle.limitNodes conditions around (node :: nodes) =
      toggle.limitNode conditions around node ++ toggle.limitNodes conditions around nodes :=
  rfl

theorem limitNode_media_of_none {params : String} (conditions : List String)
    (around source : Option String) (hasBlock settled : Bool) (children : List Node)
    (never : (Media.conditions toggle.hook params).value = none) :
    toggle.limitNode conditions around
        (.block source (.atRule "media" params hasBlock) settled children) =
      [.block source (.atRule "media" params hasBlock) settled children] := by
  simp [limitNode, never]

theorem limitNode_media_of_some {params : String} {own : List String} (conditions : List String)
    (around source : Option String) (hasBlock settled : Bool) (children : List Node)
    (holds : (Media.conditions toggle.hook params).value = some own) :
    toggle.limitNode conditions around
        (.block source (.atRule "media" params hasBlock) settled children) =
      [.block source (.atRule "media" params hasBlock) settled
        (toggle.limitNodes (Media.combine conditions own) source children)] := by
  simp [limitNode, holds]

theorem limitNode_other {node : Node} (conditions : List String) (around : Option String)
    (isOther : node.isMedia = false) :
    toggle.limitNode conditions around node =
      if node.head?.any Head.isKeyframes then [node]
      else node.replaceRules
        (if conditions.isEmpty then toggle.forkedRules else toggle.viewportRule) false around := by
  cases node with
  | leaf source content => simp [limitNode, Node.head?, Node.replaceRules]
  | block source head settled children =>
      unfold limitNode
      split
      · simp [Node.isMedia, Node.head?, Head.isMedia] at isOther
      · rfl

/-- A treated node is no keyframes. -/
theorem noKeyframes_of_isTreated {node : Node} (treated : node.isTreated) :
    node.head?.any Head.isKeyframes = false := by
  rcases node with _ | ⟨source, _ | selector | ⟨name, params, hasBlock⟩, settled, children⟩
  · cases treated
  · cases treated
  · rfl
  · simp only [Node.isTreated, Bool.and_eq_true, Bool.not_eq_true'] at treated
    exact treated.1.2

/-- What treating leaves of the nodes of a media block, without marks. -/
theorem clearMarksIn_nodes_treatNodes {nodes : List Node} (shape : MediaNodes nodes)
    (unguarded : Unguarded toggle nodes) (conditions : List String) (around : Option String) :
    clearMarksIn (treatNodes toggle conditions around nodes).nodes =
      toggle.limitNodes conditions around nodes := by
  induction nodes using nest_induction generalizing conditions around with
  | nil => rfl
  | media source params hasBlock settled children rest ofChildren ofRest =>
      rcases eachSelector_atRule.mp unguarded with ⟨childrenUnguarded, restUnguarded⟩
      rcases unmarked_block.mp shape.unmarked with ⟨rfl, childrenUnmarked, -⟩
      rw [treatNodes_cons, Treatment.nodes_append, clearMarksIn_append, limitNodes_cons,
        ofRest shape.tail restUnguarded]
      congr 1
      cases holds : (Media.conditions toggle.hook params).value with
      | none =>
          rw [treatNode_media_of_none _ _ _ _ _ _ _ holds,
            limitNode_media_of_none _ _ _ _ _ _ holds]
          simp [clearMarksIn, Node.clearMarks, clearMarksIn_of_unmarked childrenUnmarked]
      | some own =>
          rw [treatNode_media_of_some _ _ _ _ _ _ _ holds,
            limitNode_media_of_some _ _ _ _ _ _ holds]
          have ofChildren := ofChildren shape.children childrenUnguarded
            (Media.combine conditions own) source
          simp [Treatment.ofBlock, clearMarksIn, Node.clearMarks, ofChildren]
  | other node rest isOther ofRest =>
      rcases eachSelector_cons.mp unguarded with ⟨nodeUnguarded, restUnguarded⟩
      rw [treatNodes_cons, Treatment.nodes_append, clearMarksIn_append, limitNodes_cons,
        ofRest shape.tail restUnguarded, treatNode_other _ _ _ isOther,
        limitNode_other _ _ isOther]
      congr 1
      by_cases treated : node.isTreated = true
      · rw [if_pos treated, noKeyframes_of_isTreated treated, if_neg Bool.false_ne_true, treat]
        split
        · exact clearMarksIn_forkTreated around shape.head_flat shape.head_unmarked
        · exact clearMarksIn_scopeTreated around shape.head_flat shape.head_unmarked nodeUnguarded
      · rw [if_neg treated, Treatment.keep, clearMarksIn_of_unmarked shape.head_unmarked]
        by_cases keyframes : node.head?.any Head.isKeyframes = true
        · rw [if_pos keyframes]
        · rw [if_neg keyframes]
          rw [Bool.not_eq_true] at keyframes treated
          rw [Node.replaceRules_of_not_isTreated _ around shape.head_noSheet isOther keyframes
            treated]

/-! ## The container blocks -/

/-- The copies of the treated nodes of a media block, without marks. -/
theorem clearMarksIn_copies_treatNodes {nodes : List Node} (flat : FlatRules nodes)
    (conditions : List String) (around : Option String) :
    clearMarksIn (treatNodes toggle conditions around nodes).copies =
      if conditions.isEmpty then []
      else (nodes.filter Node.isTreated).flatMap fun node =>
        node.copy.replaceRules toggle.previewRule false none := by
  rw [copies_treatNodes]
  split
  · rfl
  · rw [clearMarksIn_flatMap]
    refine List.flatMap_congr fun node member => toggle.clearMarksIn_previewCopy ?_
    exact (partwise_forall_descendantsIn _).iff_forall_mem.mp flat node
      (List.mem_of_mem_filter member)

/-- A copied node stays one node. -/
theorem replaceRules_previewRule_ne_nil (node : Node) (around : Option String) :
    node.replaceRules toggle.previewRule false around ≠ [] := by
  rcases node with _ | ⟨source, _ | selector | ⟨name, params, hasBlock⟩, settled, children⟩ <;>
    simp [Node.replaceRules, previewRule]

theorem isEmpty_clearMarksIn (nodes : List Node) :
    (clearMarksIn nodes).isEmpty = nodes.isEmpty := by
  cases nodes <;> rfl

/-- There are copies if the block has conditions and treated nodes. -/
theorem isEmpty_copies_treatNodes {nodes : List Node} (flat : FlatRules nodes)
    (conditions : List String) (around : Option String) :
    (treatNodes toggle conditions around nodes).copies.isEmpty =
      (conditions.isEmpty || (nodes.filter Node.isTreated).isEmpty) := by
  rw [← isEmpty_clearMarksIn, clearMarksIn_copies_treatNodes flat]
  cases conditions with
  | nil => rfl
  | cons condition conditions =>
      cases nodes.filter Node.isTreated with
      | nil => rfl
      | cons node treated =>
          simp [replaceRules_previewRule_ne_nil]

/-- The container blocks of a treatment are those of its groups, if the blocks
in it have those of theirs. -/
theorem clearMarksIn_allContainers {nodes : List Node} (flat : FlatRules nodes)
    (conditions : List String) (around file : Option String)
    (inner : clearMarksIn ((treatNodes toggle conditions around nodes).containers.map
        (Node.inherit file)) =
      (mediaGroupsIn toggle.hook conditions nodes).flatMap (MediaGroup.containers toggle file)) :
    clearMarksIn (((treatNodes toggle conditions around nodes).allContainers conditions).map
        (Node.inherit file)) =
      ({ conditions, nodes : MediaGroup } :: mediaGroupsIn toggle.hook conditions nodes).flatMap
        (MediaGroup.containers toggle file) := by
  rw [Treatment.allContainers_eq, List.map_append, clearMarksIn_append, inner, List.flatMap_cons]
  congr 1
  rw [MediaGroup.containers, isEmpty_copies_treatNodes flat]
  by_cases absent : (conditions.isEmpty || (nodes.filter Node.isTreated).isEmpty) = true
  · rw [if_pos absent, if_pos absent]
    rfl
  · rw [if_neg absent, if_neg absent]
    have conditional : conditions ≠ [] := by
      rintro rfl
      exact absent rfl
    simp [clearMarksIn, Node.clearMarks, Node.inherit, clearMarksIn_copies_treatNodes flat,
      conditional]

theorem clearMarksIn_containers_treatNodes {nodes : List Node} (flat : FlatRules nodes)
    (conditions : List String) (around file : Option String) :
    clearMarksIn ((treatNodes toggle conditions around nodes).containers.map
        (Node.inherit file)) =
      (mediaGroupsIn toggle.hook conditions nodes).flatMap (MediaGroup.containers toggle file) := by
  induction nodes using nest_induction generalizing conditions around with
  | nil => rfl
  | media source params hasBlock settled children rest ofChildren ofRest =>
      rcases flatRules_atRule.mp flat with ⟨childrenFlat, restFlat⟩
      rw [treatNodes_cons, Treatment.containers_append, List.map_append, clearMarksIn_append,
        ofRest restFlat, mediaGroupsIn, List.flatMap_append]
      congr 1
      cases never : (Media.conditions toggle.hook params).value with
      | none =>
          rw [treatNode_media_of_none _ _ _ _ _ _ _ never]
          simp [Node.mediaGroups, never, clearMarksIn]
      | some own =>
          rw [treatNode_media_of_some _ _ _ _ _ _ _ never]
          simp only [Treatment.ofBlock, Node.mediaGroups, never]
          exact clearMarksIn_allContainers childrenFlat (Media.combine conditions own) source file
            (ofChildren childrenFlat _ _)
  | other node rest isOther ofRest =>
      have restFlat := (forall_descendantsIn_cons.mp flat).2
      have noGroups := node.mediaGroups_of_not_isMedia toggle.hook conditions isOther
      rw [treatNodes_cons, Treatment.containers_append,
        containers_treatNode_other toggle _ _ isOther, List.nil_append, ofRest restFlat,
        mediaGroupsIn, noGroups, List.nil_append]

/-! ## The walk after the visit -/

/-- A node without a media block has none after it is treated. -/
theorem noMedia_nodes_treat (conditions : List String) (around : Option String) {node : Node}
    (simple : Simple [node]) (unmarked : Unmarked [node]) (unguarded : Unguarded toggle [node]) :
    NoMedia (toggle.treat conditions around node).nodes := by
  rw [treat]
  split
  · rw [← noMedia_clearMarksIn, clearMarksIn_forkTreated around simple.flat unmarked,
      ← replaceRulesIn_singleton]
    exact (hereditary_simple.replaceRulesIn simple_forkedRules false around simple).noMedia
  · rw [← noMedia_clearMarksIn, clearMarksIn_scopeTreated around simple.flat unmarked unguarded,
      ← replaceRulesIn_singleton]
    exact (hereditary_simple.replaceRulesIn simple_viewportRule false around simple).noMedia

theorem noMedia_previewCopy {node : Node} (simple : Simple [node]) :
    NoMedia (toggle.previewCopy node).value := by
  rw [← noMedia_clearMarksIn, toggle.clearMarksIn_previewCopy simple.flat,
    ← replaceRulesIn_singleton]
  exact (hereditary_simple.replaceRulesIn simple_previewRule false none
    (simple_copy simple)).noMedia

/-- Treating marks every media block of a nest. -/
theorem mediaSettled_nodes_treatNodes {nodes : List Node} (shape : MediaNodes nodes)
    (unguarded : Unguarded toggle nodes) (conditions : List String) (around : Option String) :
    MediaSettled (treatNodes toggle conditions around nodes).nodes := by
  induction nodes using nest_induction generalizing conditions around with
  | nil => exact noMedia_nil.mediaSettled
  | media source params hasBlock settled children rest ofChildren ofRest =>
      rcases eachSelector_atRule.mp unguarded with ⟨childrenUnguarded, restUnguarded⟩
      rw [treatNodes_cons, Treatment.nodes_append, mediaSettled_append]
      constructor
      · cases holds : (Media.conditions toggle.hook params).value with
        | none =>
            rw [treatNode_media_of_none _ _ _ _ _ _ _ holds, mediaSettled_block]
            exact ⟨fun _ => rfl, mediaSettled_settleMediaIn children, noMedia_nil.mediaSettled⟩
        | some own =>
            rw [treatNode_media_of_some _ _ _ _ _ _ _ holds, Treatment.ofBlock, mediaSettled_block]
            exact ⟨fun _ => rfl, ofChildren shape.children childrenUnguarded _ source,
              noMedia_nil.mediaSettled⟩
      · exact ofRest shape.tail restUnguarded conditions around
  | other node rest isOther ofRest =>
      rcases eachSelector_cons.mp unguarded with ⟨nodeUnguarded, restUnguarded⟩
      have simple := shape.head_simple isOther
      rw [treatNodes_cons, Treatment.nodes_append, mediaSettled_append,
        treatNode_other _ _ _ isOther]
      constructor
      · split
        · exact (noMedia_nodes_treat conditions around simple shape.head_unmarked
            nodeUnguarded).mediaSettled
        · exact simple.noMedia.mediaSettled
      · exact ofRest shape.tail restUnguarded conditions around

variable (toggle) in
theorem noMedia_copies_treatNodes {nodes : List Node} (shape : MediaNodes nodes)
    (conditions : List String) (around : Option String) :
    NoMedia (treatNodes toggle conditions around nodes).copies :=
  toggle.copies_treatNodes_of_partwise (partwise_forall_descendantsIn _) conditions around
    fun _ member treated => noMedia_previewCopy (shape.simple_of_isTreated member treated)

theorem noMedia_allContainers {treatment : Treatment} (copies : NoMedia treatment.copies)
    (containers : NoMedia treatment.containers) (conditions : List String) :
    NoMedia (treatment.allContainers conditions) := by
  rw [Treatment.allContainers_eq, noMedia_append]
  constructor
  · split
    · exact noMedia_nil
    · exact noMedia_block.mpr ⟨rfl, copies, noMedia_nil⟩
  · exact containers

variable (toggle) in
theorem noMedia_containers_treatNodes {nodes : List Node} (shape : MediaNodes nodes)
    (conditions : List String) (around : Option String) :
    NoMedia (treatNodes toggle conditions around nodes).containers := by
  induction nodes using nest_induction generalizing conditions around with
  | nil => exact noMedia_nil
  | media source params hasBlock settled children rest ofChildren ofRest =>
      rw [treatNodes_cons, Treatment.containers_append, noMedia_append]
      refine ⟨?_, ofRest shape.tail conditions around⟩
      cases holds : (Media.conditions toggle.hook params).value with
      | none => simp [treatNode_media_of_none _ _ _ _ _ _ _ holds]
      | some own =>
          rw [treatNode_media_of_some _ _ _ _ _ _ _ holds]
          exact noMedia_allContainers
            (toggle.noMedia_copies_treatNodes shape.children (Media.combine conditions own) source)
            (ofChildren shape.children _ source) _
  | other node rest isOther ofRest =>
      rw [treatNodes_cons, Treatment.containers_append, containers_treatNode_other _ _ _ isOther]
      exact ofRest shape.tail conditions around

variable (toggle) in
/-- The walk changes nothing below a media or container block with all its media
blocks marked. -/
theorem walkBelow_of_isQuery (levels : Nat) (place : Place) (source : Option String) {head : Head}
    (settled : Bool) {children : List Node} (isQuery : head.isQuery)
    (settledMedia : MediaSettled children) :
    toggle.walkBelow levels place (.block source head settled children) =
      pure (.block source head settled children) := by
  cases levels with
  | zero => rfl
  | succ levels =>
      have insideQuery : (place.within source head).insideQuery = true := by
        simp [Place.within, isQuery]
      simp [walkBelow, toggle.walkNodes_of_mediaSettled insideQuery levels settledMedia]

variable (toggle) in
/-- The walk leaves container blocks without media blocks alone. -/
theorem walkBelow_containers (levels : Nat) (place : Place) (file : Option String)
    {containers : List Node} (areContainers : ∀ node ∈ containers, node.isContainerBlock)
    (noMedia : NoMedia containers) :
    (containers.map (Node.inherit file)).map
        (fun container => (toggle.walkBelow levels place container).value) =
      containers.map (Node.inherit file) := by
  induction containers with
  | nil => rfl
  | cons container rest inductionHypothesis =>
      rcases List.forall_mem_cons.mp areContainers with ⟨isContainer, areLater⟩
      rcases forall_descendantsIn_cons.mp noMedia with ⟨noneHere, noneLater⟩
      rw [List.map_cons, List.map_cons, inductionHypothesis areLater noneLater]
      congr 1
      rcases container with _ | ⟨source, _ | selector | ⟨name, params, hasBlock⟩, settled, children⟩
      · cases isContainer
      · cases isContainer
      · cases isContainer
      · have isQuery : (Head.atRule name params hasBlock).isQuery = true := by
          have isName : name = "container" := by simpa [Node.isContainerBlock] using isContainer
          simp [Head.isQuery, isName]
        rw [Node.inherit, toggle.walkBelow_of_isQuery levels place _ settled isQuery
          (noMedia_block.mp noneHere).2.1.mediaSettled, Traced.value_pure]

/-! ## The outcome -/

theorem value_visit_media_of_none (place : Place) (source : Option String) {params : String}
    (hasBlock : Bool) {children : List Node}
    (noViewport : ((selectorsIn children).any fun selector =>
      Text.contains selector toggle.viewportGuard) = false)
    (never : (Media.conditions toggle.hook params).value = none) :
    (toggle.visit place (.block source (.atRule "media" params hasBlock) false children)).value =
      { node := .block source (.atRule "media" params hasBlock) true (settleMediaIn children) } := by
  rw [visit, visitMedia, noViewport, if_neg Bool.false_ne_true, Traced.value_bind, never]
  rfl

theorem value_visit_media_of_some (place : Place) (source : Option String) {params : String}
    (hasBlock : Bool) {children : List Node} {own : List String}
    (noViewport : ((selectorsIn children).any fun selector =>
      Text.contains selector toggle.viewportGuard) = false)
    (holds : (Media.conditions toggle.hook params).value = some own) :
    (toggle.visit place (.block source (.atRule "media" params hasBlock) false children)).value =
      { node := .block source (.atRule "media" params hasBlock) true
          (treatNodes toggle own source children).nodes,
        after := ((treatNodes toggle own source children).allContainers own).map
          (Node.inherit place.around) } := by
  rw [visit, visitMedia, noViewport, if_neg Bool.false_ne_true, Traced.value_bind, holds]
  rfl

/-- What a walk makes of an outermost media block of a plain sheet without
guards. -/
theorem visitedMedia_eq_mediaOutcome (place : Place) {source : Option String} {params : String}
    {hasBlock : Bool} {children : List Node} (shape : MediaNodes children)
    (unguarded : Unguarded toggle children) :
    toggle.visitedMedia place (.block source (.atRule "media" params hasBlock) false children) =
      toggle.mediaOutcome place (.block source (.atRule "media" params hasBlock) false children) := by
  generalize isLevels : (Node.block source (.atRule "media" params hasBlock) false
    children).height = levels
  have noViewport := viewportFree_iff.mp (viewportFree_of_unguarded unguarded)
  rw [visitedMedia, isLevels, value_visitBelow, mediaOutcome]
  cases holds : (Media.conditions toggle.hook params).value with
  | none =>
      rw [value_visit_media_of_none place source hasBlock noViewport holds,
        toggle.walkBelow_of_isQuery levels place source true rfl (mediaSettled_settleMediaIn children),
        limitNode_media_of_none _ _ _ _ _ _ holds]
      simp [Node.mediaGroups, holds, clearMarksIn, Node.clearMarks,
        clearMarksIn_of_unmarked shape.unmarked]
  | some own =>
      have settledMedia := mediaSettled_nodes_treatNodes shape unguarded own source
      have noMedia := noMedia_allContainers (toggle.noMedia_copies_treatNodes shape own source)
        (toggle.noMedia_containers_treatNodes shape own source) own
      have areContainers := isContainerBlock_of_mem_allContainers
        (toggle.isContainerBlock_of_mem_containers own source children) own
      have walked := toggle.walkBelow_containers levels place place.around areContainers noMedia
      rw [value_visit_media_of_some place source hasBlock noViewport holds,
        toggle.walkBelow_of_isQuery levels place source true rfl settledMedia,
        limitNode_media_of_some _ _ _ _ _ _ holds, Node.mediaGroups, holds, walked,
        Media.combine_nil_left, Traced.value_pure, clearMarksIn, Node.clearMarks,
        clearMarksIn_nodes_treatNodes shape unguarded,
        clearMarksIn_allContainers shape.flat own source place.around
          (clearMarksIn_containers_treatNodes shape.flat own source place.around)]
      rfl

/-- In a plain sheet without guards every outermost media block has the outcome
`Toggle.mediaOutcome`. -/
theorem outcomes_visitedMedia (place : Place) {nodes : List Node} (plain : Plain nodes)
    (unmarked : Unmarked nodes) (unguarded : Unguarded toggle nodes) :
    toggle.outcomes toggle.visitedMedia place nodes =
      toggle.outcomes toggle.mediaOutcome place nodes := by
  induction nodes using forest_induction generalizing place with
  | nil => rfl
  | leaf source content rest ofRest =>
      rw [outcomes, outcomes, ofRest place plain.tail (unmarked_leaf.mp unmarked)
        (eachSelector_leaf.mp unguarded)]
      rfl
  | block source head settled children rest ofChildren ofRest =>
      rcases unmarked_block.mp unmarked with ⟨rfl, childrenUnmarked, restUnmarked⟩
      rw [outcomes, outcomes,
        ofRest place plain.tail restUnmarked (eachSelector_cons.mp unguarded).2]
      congr 1
      cases head with
      | sheet => exact absurd rfl (plain.noSheet (.block source .sheet false children) (by simp))
      | rule selector => rfl
      | atRule name params hasBlock =>
          have childrenUnguarded := (eachSelector_atRule.mp unguarded).1
          cases isMedia : (Head.atRule name params hasBlock).isMedia with
          | true =>
              have shape := plain.mediaNodes unmarked isMedia
              obtain rfl : name = "media" := by simpa [Head.isMedia] using isMedia
              exact visitedMedia_eq_mediaOutcome place shape childrenUnguarded
          | false =>
              simp [outcome, isMedia,
                ofChildren _ plain.children childrenUnmarked childrenUnguarded]

end Toggle

/-- What a run makes of a plain sheet without guards.  Every media block that no
other media block is around becomes itself, with its rules limited to the
viewport, and the container blocks of its groups in document order. -/
theorem runToggle_plain (options : Options) (source : Option String) (settled : Bool)
    (children : List Node) (plain : Plain children)
    (unguarded : Unguarded (Toggle.ofOptions options) children) :
    (runToggle options (.block source .sheet settled children)).value =
      .block source .sheet false
        ((Toggle.ofOptions options).addedContext source children ++
          (Toggle.ofOptions options).outcomes (Toggle.ofOptions options).mediaOutcome
            (Place.outside.within source .sheet) (clearMarksIn children)) := by
  have clearedUnguarded : Unguarded (Toggle.ofOptions options) (clearMarksIn children) := by
    simpa [EachSelector] using unguarded
  rw [value_runToggle_sheet options source settled plain.flat,
    Toggle.outcomes_visitedMedia _ plain.clearMarksIn (unmarked_clearMarksIn children)
      clearedUnguarded]

/-- Nodes of a sheet: media blocks of all kinds in one another, with a rule
before and after the inner ones. -/
def nestedNodes : List Node :=
  [.block none (.atRule "media" "(min-width: 600px)" true) false
    [.block none (.rule ".a") false
        [.leaf none (.declaration { property := "width", value := "50vw" })],
      .block none (.atRule "media" "print" true) false
        [.block none (.rule ".b") false []],
      .block none (.atRule "media" "screen" true) false
        [.block none (.rule ".c") false
          [.leaf none (.declaration { property := "height", value := "5vh" })]],
      .block none (.rule "body") false []]]

theorem runToggle_plain_nestedNodes :
    Plain nestedNodes ∧ Unguarded (Toggle.ofOptions {}) nestedNodes ∧
      (runToggle {} (.block none .sheet false nestedNodes)).value =
        .block none .sheet false
          ((Toggle.ofOptions {}).addedContext none nestedNodes ++
            (Toggle.ofOptions {}).outcomes (Toggle.ofOptions {}).mediaOutcome
              (Place.outside.within none .sheet) (clearMarksIn nestedNodes)) := by
  have plain : Plain nestedNodes := by decide
  have unguarded : Unguarded (Toggle.ofOptions {}) nestedNodes := by decide
  exact ⟨plain, unguarded, runToggle_plain {} none false nestedNodes plain unguarded⟩

end ContainerPreview
