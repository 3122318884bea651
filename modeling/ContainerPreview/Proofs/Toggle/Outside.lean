import ContainerPreview.Proofs.Toggle.Replace

/-!
# Rules outside media blocks

In a sheet whose rules hold only declarations and comments, the pass does to
everything outside media blocks what `Toggle.outcomes` says, whatever becomes of
the media blocks: a rule that depends on the viewport gets exactly one variant,
right after it, and no other node is put in on its account.
-/

namespace ContainerPreview

namespace Toggle

variable (toggle : Toggle)

/-- What a walk makes of a media block, without marks: the visited block and the
container blocks after it, with the walk gone below them. -/
def visitedMedia (place : Place) (media : Node) : List Node :=
  clearMarksIn (toggle.visitBelow (toggle.walkBelow media.height) place media).value

/-- The container blocks of a treatment are container blocks. -/
theorem isContainerBlock_of_mem_allContainers {treatment : Treatment}
    (inner : ∀ node ∈ treatment.containers, node.isContainerBlock) (conditions : List String) :
    ∀ node ∈ treatment.allContainers conditions, node.isContainerBlock := by
  intro node member
  rw [Treatment.allContainers_eq, List.mem_append] at member
  rcases member with own | later
  · split at own
    · cases own
    · rw [List.mem_singleton] at own
      simp [own, Node.isContainerBlock]
  · exact inner node later

theorem isContainerBlock_of_mem_containers (conditions : List String) (around : Option String)
    (nodes : List Node) :
    ∀ node ∈ (treatNodes toggle conditions around nodes).containers, node.isContainerBlock := by
  induction nodes using nest_induction generalizing conditions around with
  | nil => simp
  | media source params hasBlock settled children rest ofChildren ofRest =>
      intro node member
      rw [treatNodes_cons, Treatment.containers_append, List.mem_append] at member
      rcases member with own | later
      · cases holds : (Media.conditions toggle.hook params).value with
        | none =>
            rw [toggle.treatNode_media_of_none _ _ _ _ _ _ holds] at own
            cases own
        | some inner =>
            rw [toggle.treatNode_media_of_some _ _ _ _ _ _ holds] at own
            exact isContainerBlock_of_mem_allContainers (ofChildren _ _) _ node own
      · exact ofRest conditions around node later
  | other node rest isOther ofRest =>
      rw [treatNodes_cons, Treatment.containers_append,
        toggle.containers_treatNode_other _ _ isOther]
      exact ofRest conditions around

/-- What a media block has put after it are container blocks. -/
theorem isContainerBlock_of_mem_after (conditions : List String) (around file : Option String)
    (nodes : List Node) :
    ∀ node ∈ ((treatNodes toggle conditions around nodes).allContainers conditions).map
      (Node.inherit file), node.isContainerBlock := by
  intro node member
  rcases List.mem_map.mp member with ⟨container, isMade, rfl⟩
  rw [isContainerBlock_inherit]
  exact isContainerBlock_of_mem_allContainers
    (toggle.isContainerBlock_of_mem_containers conditions around nodes) conditions container isMade

/-- A media block keeps its file, its parameters and its place, and what a visit
puts after it are container blocks. -/
theorem visit_media (place : Place) (source : Option String) (params : String)
    (hasBlock settled : Bool) (children : List Node) :
    ∃ nodes containers,
      (toggle.visit place (.block source (.atRule "media" params hasBlock) settled children)).value =
          { node := .block source (.atRule "media" params hasBlock) true nodes,
            after := containers } ∧
        ∀ container ∈ containers, container.isContainerBlock := by
  cases settled with
  | true => exact ⟨children, [], rfl, by simp⟩
  | false =>
      simp only [visit, visitMedia]
      split
      · exact ⟨children, [], rfl, by simp⟩
      · simp only [Traced.value_bind]
        split
        · exact ⟨settleMediaIn children, [], rfl, by simp⟩
        · rename_i conditions _
          exact ⟨_, _, rfl, toggle.isContainerBlock_of_mem_after conditions source place.around
            children⟩

/-- A visit of a node that a visit has put in changes nothing: a variant is marked, and a
container block is neither a rule nor a media block. -/
theorem visit_of_mem_after {place : Place} {node added : Node}
    (member : added ∈ (toggle.visit place node).value.after) (place' : Place) :
    toggle.visit place' added = pure { node := added } := by
  rcases node with _ | ⟨source, _ | selector | ⟨name, params, hasBlock⟩, settled, children⟩
  · cases member
  · cases member
  · have isVariant : added ∈
        (toggle.forkRule place.around source selector children).value.variants := by
      simp only [visit, visitRule] at member
      split at member
      · cases member
      · split at member
        · cases member
        · exact member
    unfold forkRule at isVariant
    split at isVariant
    · rw [Traced.value_bind, Traced.value_bind, Traced.value_bind, Traced.value_pure,
        List.mem_singleton] at isVariant
      rw [isVariant]
      rfl
    · cases isVariant
  · cases isMedia : (Head.atRule name params hasBlock).isMedia with
    | false =>
        have isOther :
            (Node.block source (.atRule name params hasBlock) settled children).isMedia = false :=
          isMedia
        rw [toggle.visit_other place rfl isOther] at member
        cases member
    | true =>
        obtain rfl : name = "media" := by simpa [Head.isMedia] using isMedia
        obtain ⟨nodes, containers, visited, areContainers⟩ :=
          toggle.visit_media place source params hasBlock settled children
        rw [visited] at member
        have isContainer := areContainers added member
        rcases added with _ | ⟨_, _ | _ | ⟨name, _, _⟩, _, _⟩
        · cases isContainer
        · cases isContainer
        · cases isContainer
        · obtain rfl : name = "container" := by simpa [Node.isContainerBlock] using isContainer
          exact toggle.visit_other place' rfl rfl

/-- A walk keeps a media block where it is, with its parameters, and puts only
container blocks after it. -/
theorem visitedMedia_eq_cons (place : Place) (source : Option String) (params : String)
    (hasBlock settled : Bool) (children : List Node) :
    ∃ nodes containers,
      toggle.visitedMedia place (.block source (.atRule "media" params hasBlock) settled children) =
          .block source (.atRule "media" params hasBlock) false nodes :: containers ∧
        ∀ container ∈ containers, container.isContainerBlock := by
  rcases toggle.visit_media place source params hasBlock settled children with
    ⟨nodes, containers, visited, areContainers⟩
  obtain ⟨walked, sameBlock⟩ := toggle.exists_walkBelow_block
    (Node.block source (.atRule "media" params hasBlock) settled children).height place source
    (.atRule "media" params hasBlock) true nodes
  simp only [visitedMedia, value_visitBelow, visited, sameBlock, clearMarksIn_eq_map,
    List.map_cons, Node.clearMarks]
  refine ⟨_, _, rfl, ?_⟩
  intro container member
  simp only [List.map_map, List.mem_map, Function.comp_apply] at member
  rcases member with ⟨made, isMade, rfl⟩
  have isContainer := areContainers made isMade
  rcases made with _ | ⟨madeSource, madeHead, madeSettled, madeChildren⟩
  · cases isContainer
  · obtain ⟨below, isBelow⟩ := toggle.exists_walkBelow_block
      (Node.block source (.atRule "media" params hasBlock) settled children).height place
      madeSource madeHead madeSettled madeChildren
    rw [isBelow]
    cases madeHead <;> exact isContainer

/-! ## The walk outside media blocks -/

theorem walkBelow_variants (levels : Nat) (place : Place) (around source : Option String)
    (selector : String) {children : List Node} (leaves : ∀ child ∈ children, child.isLeaf) :
    (toggle.forkRule around source selector children).value.variants.map
        (fun variant => (toggle.walkBelow levels place variant).value) =
      (toggle.forkRule around source selector children).value.variants := by
  have converted : ∀ node ∈ (toggle.variantChildren source (copyInto source children)).value,
      node.isLeaf :=
    isLeaf_of_mem_nodesVariant (isLeaf_of_mem_copyInto leaves)
  unfold forkRule
  split
  · simp [toggle.walkBelow_of_leaves _ _ _ _ _ converted]
  · rfl

/-- What a walk makes of a rule with leaves as children. -/
theorem clearMarksIn_visitBelow_rule (levels : Nat) (place : Place) (source : Option String)
    (selector : String) {children : List Node} (leaves : ∀ child ∈ children, child.isLeaf) :
    clearMarksIn (toggle.visitBelow (toggle.walkBelow levels) place
        (.block source (.rule selector) false children)).value =
      toggle.outcome toggle.visitedMedia place (.block source (.rule selector) false children) := by
  simp only [value_visitBelow, visit, visitRule, outcome]
  by_cases skipped : (place.insideQuery || place.inKeyframes) = true
  · simp [skipped, toggle.walkBelow_of_leaves _ _ _ _ _ leaves, clearMarksIn, Node.clearMarks,
      clearMarksIn_of_leaves leaves]
  · by_cases guarded : toggle.isGuarded selector = true
    · simp [skipped, guarded, toggle.walkBelow_of_leaves _ _ _ _ _ leaves, clearMarksIn,
        Node.clearMarks, clearMarksIn_of_leaves leaves]
    · have walked := toggle.walkBelow_variants levels place place.around source selector leaves
      simp only [skipped, guarded, Bool.false_or, Bool.or_false, Bool.false_eq_true, if_false,
        Traced.value_bind, Traced.value_pure, toggle.walkBelow_of_leaves _ _ _ _ _ leaves, walked]
      exact toggle.clearMarksIn_forkedRule place.around source selector leaves

/-- What a walk makes of a block that is neither a rule nor a media block, given
what it makes of the nodes in it. -/
theorem clearMarksIn_visitBelow_block {levels : Nat} (place : Place) {source : Option String}
    {head : Head} {children : List Node}
    (noRule : (Node.block source head false children).isRule = false)
    (noMedia : head.isMedia = false)
    (within : (Node.block source head false children).height ≤ levels)
    (ofChildren : ∀ levels, heightIn children ≤ levels →
      clearMarksIn (toggle.walkNodes (toggle.walkBelow levels) (place.within source head)
          children).value =
        toggle.outcomes toggle.visitedMedia (place.within source head) children) :
    clearMarksIn (toggle.visitBelow (toggle.walkBelow levels) place
        (.block source head false children)).value =
      toggle.outcome toggle.visitedMedia place (.block source head false children) := by
  cases levels with
  | zero => simp at within
  | succ levels =>
      have walked := ofChildren levels (by simpa using within)
      rw [value_visitBelow, toggle.visit_other place noRule (by simpa [Node.isMedia, Node.head?])]
      simp only [Traced.value_pure, walkBelow, Traced.value_bind, List.map_nil]
      cases head with
      | rule selector => cases noRule
      | sheet => simp [outcome, noMedia, clearMarksIn, Node.clearMarks, walked]
      | atRule name params hasBlock =>
          simp [outcome, noMedia, clearMarksIn, Node.clearMarks, walked]

/-- The walk over the nodes of a block at any place. -/
theorem clearMarksIn_walkNodes {levels : Nat} (place : Place) {nodes : List Node}
    (flat : FlatRules nodes) (unmarked : Unmarked nodes) (within : heightIn nodes ≤ levels) :
    clearMarksIn (toggle.walkNodes (toggle.walkBelow levels) place nodes).value =
      toggle.outcomes toggle.visitedMedia place nodes := by
  induction nodes using forest_induction generalizing levels place with
  | nil => rfl
  | leaf source content rest ofRest =>
      simp only [flatRules_leaf, unmarked_leaf, heightIn_cons, height_leaf] at flat unmarked within
      rw [value_walkNodes_cons, clearMarksIn_append, ofRest place flat unmarked (by omega)]
      simp [visitBelow, visit, outcomes, outcome, clearMarksIn, Node.clearMarks]
  | block source head settled children rest ofChildren ofRest =>
      rw [unmarked_block] at unmarked
      rcases unmarked with ⟨rfl, childrenUnmarked, restUnmarked⟩
      simp only [heightIn_cons, Nat.max_le] at within
      have restFlat : FlatRules rest := by
        cases head <;> simp_all
      rw [value_walkNodes_cons, clearMarksIn_append,
        ofRest place restFlat restUnmarked within.2, outcomes]
      congr 1
      cases head with
      | rule selector =>
          exact toggle.clearMarksIn_visitBelow_rule levels place source selector
            (flatRules_rule.mp flat).1
      | sheet =>
          exact toggle.clearMarksIn_visitBelow_block place rfl rfl within.1 fun levels within =>
            ofChildren _ (flatRules_sheet.mp flat).1 childrenUnmarked within
      | atRule name params hasBlock =>
          cases isMedia : (Head.atRule name params hasBlock).isMedia with
          | true =>
              rw [toggle.visitBelow_eq_of_height_le place within.1]
              simp [outcome, isMedia, visitedMedia]
          | false =>
              exact toggle.clearMarksIn_visitBelow_block place rfl isMedia within.1
                fun levels within => ofChildren _ (flatRules_atRule.mp flat).1 childrenUnmarked
                  within

/-! ## The context rule -/

/-- The walk neither changes the context rule nor puts anything after it. -/
theorem walkNodes_neededContext (levels : Nat) (place : Place) (source : Option String)
    (nodes : List Node) :
    (toggle.walkNodes (toggle.walkBelow levels) place (toggle.neededContext source nodes)).value =
      toggle.neededContext source nodes := by
  unfold neededContext
  split
  · have leaves : ∀ child ∈ (toggle.contextRule source).children, child.isLeaf := by
      simp [contextRule, Node.children, Node.isLeaf]
    simp only [contextRule, Node.children] at leaves
    simp [contextRule, value_walkNodes_cons, value_visitBelow, visit, visitRule,
      toggle.walkBelow_of_leaves _ _ _ _ _ leaves]
  · rfl

/-- Without its mark, the context rule is the one that a pass is said to add. -/
theorem clearMarksIn_neededContext (source : Option String) (nodes : List Node) :
    clearMarksIn (toggle.neededContext source (clearMarksIn nodes)) =
      toggle.addedContext source nodes := by
  have sameFixed : hasFixedPosition (clearMarksIn nodes) = hasFixedPosition nodes := by
    simp [hasFixedPosition]
  have samePresent : toggle.hasContextRule (clearMarksIn nodes) =
      nodes.any (·.selector? == some toggle.previewGuard) := by
    simp [hasContextRule, clearMarksIn_eq_map, List.any_map, Function.comp_def]
  unfold neededContext addedContext
  rw [sameFixed, samePresent]
  split
  · simp [contextRule, clearMarksIn, Node.clearMarks]
  · rfl

end Toggle

/-- What a run makes of a sheet, when the walk over its nodes is known. -/
theorem value_runToggle_sheet (options : Options) (source : Option String) (settled : Bool)
    {children : List Node} (flat : FlatRules children) :
    (runToggle options (.block source .sheet settled children)).value =
      .block source .sheet false
        ((Toggle.ofOptions options).addedContext source children ++
          (Toggle.ofOptions options).outcomes (Toggle.ofOptions options).visitedMedia
            (Place.outside.within source .sheet) (clearMarksIn children)) := by
  have within : heightIn (clearMarksIn children) ≤
      heightIn ((Toggle.ofOptions options).preparedNodes source children) := by
    simp only [Toggle.preparedNodes, heightIn_append]
    exact Nat.le_max_right _ _
  rw [value_runToggle, Toggle.walkAll]
  generalize heightIn ((Toggle.ofOptions options).preparedNodes source children) = levels at within
  rw [Toggle.preparedNodes, Toggle.value_walkNodes_append, clearMarksIn_append,
    Toggle.walkNodes_neededContext, Toggle.clearMarksIn_neededContext,
    Toggle.clearMarksIn_walkNodes _ _ (by simpa using flat) (unmarked_clearMarksIn children) within]

/-- In a sheet whose rules hold only declarations and comments, all that is
outside media blocks becomes what `Toggle.outcomes` says, and a media block
stays where it is, with nothing but container blocks put after it. -/
theorem runToggle_outside_media (options : Options) (source : Option String) (settled : Bool)
    (children : List Node) (flat : FlatRules children) :
    ∃ media : Place → Node → List Node, MediaStay media ∧
      (runToggle options (.block source .sheet settled children)).value =
        .block source .sheet false
          ((Toggle.ofOptions options).addedContext source children ++
            (Toggle.ofOptions options).outcomes media (Place.outside.within source .sheet)
              (clearMarksIn children)) := by
  refine ⟨(Toggle.ofOptions options).visitedMedia, ?_, ?_⟩
  · exact (Toggle.ofOptions options).visitedMedia_eq_cons
  · exact value_runToggle_sheet options source settled flat

/-- Nodes of a sheet: a rule with a viewport unit, and an unanchored rule with
a fixed position in a block that is no media block. -/
def fixedNodes : List Node :=
  [.block none (.rule ".hero") false
      [.leaf none (.declaration { property := "width", value := "10vw" })],
    .block none (.atRule "supports" "(display: grid)" true) false
      [.block none (.rule ".bar") false
        [.leaf none (.declaration { property := "position", value := "fixed" })]]]

theorem runToggle_outside_media_fixedNodes :
    FlatRules fixedNodes ∧
      ∃ media : Place → Node → List Node, MediaStay media ∧
        (runToggle {} (.block none .sheet false fixedNodes)).value =
          .block none .sheet false
            ((Toggle.ofOptions {}).addedContext none fixedNodes ++
              (Toggle.ofOptions {}).outcomes media (Place.outside.within none .sheet)
                (clearMarksIn fixedNodes)) := by
  have flat : FlatRules fixedNodes := by decide
  exact ⟨flat, runToggle_outside_media {} none false fixedNodes flat⟩

end ContainerPreview
