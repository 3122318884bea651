import ContainerPreview.Proofs.Toggle.Cascade

/-!
# Container blocks and the viewport

In the preview nothing may depend on the size of the viewport.  In a plain sheet
without guards this is so: the container blocks that a pass puts in hold no media
block and no rule scoped to the viewport, since what they copy stands directly in
a media block of the nest, whose conditions they combine.  A media block that is
buried in the nest is copied along with the block around it.
-/

namespace ContainerPreview

open List

/-! ## Conditions on heads -/

/-- The heads of all blocks are of a kind. -/
def EachHead (P : Head → Prop) (nodes : List Node) : Prop :=
  ∀ node ∈ descendantsIn nodes, ∀ head ∈ node.head?, P head

section Heads

variable {P Q : Head → Prop} {source : Option String} {content : Leaf} {head : Head}
  {settled : Bool} {node : Node} {children rest left right nodes : List Node}

@[simp]
theorem eachHead_leaf : EachHead P (.leaf source content :: rest) ↔ EachHead P rest := by
  simp only [EachHead, forall_descendantsIn_leaf]
  simp [Node.head?]

@[simp]
theorem eachHead_block :
    EachHead P (.block source head settled children :: rest) ↔
      P head ∧ EachHead P children ∧ EachHead P rest := by
  simp only [EachHead, forall_descendantsIn_block]
  simp [Node.head?]

@[simp]
theorem eachHead_append : EachHead P (left ++ right) ↔ EachHead P left ∧ EachHead P right := by
  simp only [EachHead, forall_descendantsIn_append]

theorem eachHead_nil : EachHead P [] := by
  simp [EachHead]

theorem eachHead_of_leaves (leaves : ∀ node ∈ nodes, node.isLeaf) : EachHead P nodes := by
  induction nodes, leaves using leaves_induction with
  | nil => exact eachHead_nil
  | leaf source content rest leaves ofRest => exact eachHead_leaf.mpr ofRest

theorem eachHead_rule {selector : String} (here : P (.rule selector))
    (leaves : ∀ child ∈ children, child.isLeaf) (ofRest : EachHead P rest) :
    EachHead P (.block source (.rule selector) settled children :: rest) :=
  eachHead_block.mpr ⟨here, eachHead_of_leaves leaves, ofRest⟩

theorem eachHead_flatMap {change : Node → List Node}
    (ofEach : ∀ node ∈ nodes, EachHead P (change node)) : EachHead P (nodes.flatMap change) :=
  have partwise : Partwise (EachHead P) := ⟨eachHead_nil, eachHead_append⟩
  partwise.flatMap_iff.mpr ofEach

theorem eachHead_of_mem (each : EachHead P nodes) (member : node ∈ nodes) : EachHead P [node] :=
  forall_descendantsIn_of_mem each (mem_descendantsIn member)

theorem eachSelector_iff_eachHead {R : String → Prop} :
    EachSelector R nodes ↔
      EachHead (fun head => ∀ selector, head = .rule selector → R selector) nodes := by
  induction nodes using forest_induction with
  | nil => simp [eachHead_nil]
  | leaf source content rest ofRest => rw [eachSelector_leaf, eachHead_leaf, ofRest]
  | block source head settled children rest ofChildren ofRest =>
      cases head <;> simp [ofChildren, ofRest]

theorem noMedia_iff_eachHead : NoMedia nodes ↔ EachHead (fun head => head.isMedia = false) nodes := by
  induction nodes using forest_induction with
  | nil => simp [eachHead_nil]
  | leaf source content rest ofRest => rw [noMedia_leaf, eachHead_leaf, ofRest]
  | block source head settled children rest ofChildren ofRest =>
      rw [noMedia_block, eachHead_block, ofChildren, ofRest]

/-- Copies have the heads of what they are copies of. -/
theorem eachHead_copyInto (file : Option String) (nodes : List Node) :
    EachHead P (copyInto file nodes) ↔ EachHead P nodes := by
  induction nodes using forest_induction generalizing file with
  | nil => rfl
  | leaf source content rest ofRest =>
      rw [copyInto, Node.copy, Node.inherit, eachHead_leaf, eachHead_leaf, ofRest]
  | block source head settled children rest ofChildren ofRest =>
      rw [copyInto, Node.copy, Node.inherit, eachHead_block, eachHead_block, ofChildren, ofRest]

theorem eachHead_copy : EachHead P [node.copy] ↔ EachHead P [node] := by
  rw [← eachHead_copyInto none [node]]
  cases node <;> simp [copyInto, Node.copy, Node.inherit]

/-- If rules with heads of one kind are replaced by nodes with heads of another, all
heads are of that other kind in the end, given that they were of the one kind, which
is part of the other. -/
theorem eachHead_replaceRulesIn {change : RuleChange} (kept : ∀ head, P head → Q head)
    (changed : ∀ around source selector children, (∀ child ∈ children, child.isLeaf) →
      P (.rule selector) → EachHead Q (change around source selector children))
    (inKeyframes : Bool) (around : Option String) (flat : FlatRules nodes)
    (each : EachHead P nodes) : EachHead Q (replaceRulesIn change inKeyframes around nodes) := by
  induction nodes using forest_induction generalizing inKeyframes around with
  | nil => exact eachHead_nil
  | leaf source content rest ofRest =>
      rw [replaceRulesIn_leaf, eachHead_leaf]
      exact ofRest inKeyframes around (flatRules_leaf.mp flat) (eachHead_leaf.mp each)
  | block source head settled children rest ofChildren ofRest =>
      rcases eachHead_block.mp each with ⟨here, below, later⟩
      cases head with
      | sheet =>
          rcases flatRules_sheet.mp flat with ⟨childrenFlat, restFlat⟩
          rw [replaceRulesIn_sheet, eachHead_block]
          exact ⟨kept _ here, ofChildren _ source childrenFlat below,
            ofRest inKeyframes around restFlat later⟩
      | rule selector =>
          rcases flatRules_rule.mp flat with ⟨leaves, -, restFlat⟩
          rw [replaceRulesIn_rule, eachHead_append]
          refine ⟨?_, ofRest inKeyframes around restFlat later⟩
          split
          · exact eachHead_rule (kept _ here) leaves eachHead_nil
          · exact changed around source selector children leaves here
      | atRule name params hasBlock =>
          rcases flatRules_atRule.mp flat with ⟨childrenFlat, restFlat⟩
          rw [replaceRulesIn_atRule, eachHead_block]
          exact ⟨kept _ here, ofChildren _ source childrenFlat below,
            ofRest inKeyframes around restFlat later⟩

end Heads

/-! ## Independence of the viewport -/

/-- Nothing in the nodes depends on the size of the viewport. -/
structure Independent (toggle : Toggle) (nodes : List Node) : Prop where
  noMedia : NoMedia nodes
  viewportFree : ViewportFree toggle nodes

instance (toggle : Toggle) (nodes : List Node) : Decidable (Independent toggle nodes) :=
  decidable_of_iff (NoMedia nodes ∧ ViewportFree toggle nodes)
    ⟨fun ⟨noMedia, viewportFree⟩ => ⟨noMedia, viewportFree⟩,
      fun independent => ⟨independent.noMedia, independent.viewportFree⟩⟩

/-- Nothing in the container blocks of the nodes depends on the size of the
viewport. -/
def PreviewsIndependent (toggle : Toggle) (nodes : List Node) : Prop :=
  ∀ node ∈ descendantsIn nodes, node.isContainerBlock → Independent toggle node.children

instance (toggle : Toggle) (nodes : List Node) : Decidable (PreviewsIndependent toggle nodes) :=
  inferInstanceAs (Decidable (∀ node ∈ descendantsIn nodes, node.isContainerBlock →
    Independent toggle node.children))

/-- There is no container block. -/
def NoContainers (nodes : List Node) : Prop :=
  ∀ node ∈ descendantsIn nodes, node.isContainerBlock = false

instance (nodes : List Node) : Decidable (NoContainers nodes) :=
  inferInstanceAs (Decidable (∀ node ∈ descendantsIn nodes, node.isContainerBlock = false))

/-- None of the selector lists comes to contain the guard of the viewport when it is
placed in the preview. -/
abbrev Placeable (toggle : Toggle) : List Node → Prop :=
  EachSelector fun selector =>
    Text.contains (toggle.placeInPreview selector) toggle.viewportGuard = false

/-- The head is no media block, and the guard of the viewport is not in it. -/
def Head.Independent (toggle : Toggle) (head : Head) : Prop :=
  head.isMedia = false ∧
    ∀ selector, head = .rule selector → Text.contains selector toggle.viewportGuard = false

/-- The head is independent of the viewport, and stays so when it is placed in the
preview. -/
def Head.Translatable (toggle : Toggle) (head : Head) : Prop :=
  head.Independent toggle ∧ ∀ selector, head = .rule selector →
    Text.contains (toggle.placeInPreview selector) toggle.viewportGuard = false

theorem independent_iff_eachHead {toggle : Toggle} {nodes : List Node} :
    Independent toggle nodes ↔ EachHead (Head.Independent toggle) nodes := by
  constructor
  · rintro ⟨noMedia, viewportFree⟩ node member head isHead
    exact ⟨noMedia_iff_eachHead.mp noMedia node member head isHead,
      eachSelector_iff_eachHead.mp viewportFree node member head isHead⟩
  · intro each
    constructor
    · exact noMedia_iff_eachHead.mpr fun node member head isHead => (each node member head isHead).1
    · exact eachSelector_iff_eachHead.mpr fun node member head isHead =>
        (each node member head isHead).2

/-! ## Container blocks of a group -/

section Groups

variable {toggle : Toggle} {hook : Option Media.Hook} {conditions : List String} {node : Node}
  {nodes : List Node} {group : MediaGroup}

theorem eachHead_of_group {P : Head → Prop} (each : EachHead P nodes)
    (member : group ∈ nestGroups hook conditions nodes) : EachHead P group.nodes :=
  forall_descendantsIn_of_group each member

theorem eachSelector_of_group {R : String → Prop} (each : EachSelector R nodes)
    (member : group ∈ nestGroups hook conditions nodes) : EachSelector R group.nodes :=
  eachSelector_iff_eachHead.mpr (eachHead_of_group (eachSelector_iff_eachHead.mp each) member)

theorem eachHead_previewRule {P : Head → Prop} (around source : Option String) {selector : String}
    {children : List Node} (leaves : ∀ child ∈ children, child.isLeaf)
    (placed : P (.rule (toggle.placeInPreview selector))) :
    EachHead P (toggle.previewRule around source selector children) :=
  eachHead_rule placed (isLeaf_of_mem_nodesVariant leaves) eachHead_nil

/-- The container block of a group holds heads of nodes of the group, with the
selector lists of rules placed in the preview. -/
theorem eachHead_of_mem_containers {P Q : Head → Prop} (shape : MediaNodes group.nodes)
    (each : ∀ node ∈ group.nodes, node.isTreated → EachHead P [node])
    (kept : ∀ head, P head → Q head)
    (placed : ∀ selector, P (.rule selector) → Q (.rule (toggle.placeInPreview selector)))
    (around : Option String) :
    ∀ container ∈ group.containers toggle around, EachHead Q container.children := by
  intro container member
  rw [MediaGroup.containers] at member
  split at member
  · cases member
  · rw [mem_singleton.mp member, Node.children]
    refine eachHead_flatMap fun node isCopied => ?_
    rcases mem_filter.mp isCopied with ⟨inGroup, isTreated⟩
    rw [← replaceRulesIn_singleton]
    refine eachHead_replaceRulesIn kept ?_ false none
      (simple_copy (shape.simple_of_isTreated inGroup isTreated)).flat
      (eachHead_copy.mpr (each node inGroup isTreated))
    exact fun around source selector children leaves here =>
      eachHead_previewRule around source leaves (placed selector here)

/-- Nothing in the container block of a group depends on the viewport. -/
theorem independent_of_mem_containers (shape : MediaNodes group.nodes)
    (viewportFree : ViewportFree toggle group.nodes) (placeable : Placeable toggle group.nodes)
    (around : Option String) :
    ∀ container ∈ group.containers toggle around, Independent toggle container.children := by
  have each : ∀ node ∈ group.nodes, node.isTreated →
      EachHead (Head.Translatable toggle) [node] := by
    intro node inGroup isTreated
    have isBelow := mem_descendantsIn inGroup
    have noMedia := (shape.simple_of_isTreated inGroup isTreated).noMedia
    have independent := independent_iff_eachHead.mp
      ⟨noMedia, eachSelector_of_mem viewportFree isBelow⟩
    have placed := eachSelector_iff_eachHead.mp (eachSelector_of_mem placeable isBelow)
    exact fun below member head isHead =>
      ⟨independent below member head isHead, placed below member head isHead⟩
  intro container member
  rw [independent_iff_eachHead]
  refine eachHead_of_mem_containers shape each (fun _ translatable => translatable.1) ?_ around
    container member
  rintro selector ⟨-, placed⟩
  refine ⟨rfl, fun selector' same => ?_⟩
  rw [← Head.rule.inj same]
  exact placed selector rfl

/-- Nothing in the container blocks of a media block depends on the viewport. -/
theorem independent_of_mem_mediaGroups {media : Node} (plain : Plain [media])
    (unmarked : Unmarked [media]) (viewportFree : ViewportFree toggle [media])
    (placeable : Placeable toggle [media]) (isGroup : group ∈ media.mediaGroups hook conditions)
    (around : Option String) :
    ∀ container ∈ group.containers toggle around, Independent toggle container.children := by
  cases isMedia : media.isMedia with
  | false =>
      rw [media.mediaGroups_of_not_isMedia hook conditions isMedia] at isGroup
      cases isGroup
  | true =>
      rcases media with _ | ⟨source, _ | selector | ⟨name, params, hasBlock⟩, settled, children⟩
      · cases isMedia
      · cases isMedia
      · cases isMedia
      · have shape := plain.mediaNodes unmarked isMedia
        obtain rfl : name = "media" := by
          simpa [Node.isMedia, Node.head?, Head.isMedia] using isMedia
        obtain ⟨own, inNest⟩ := exists_mem_nestGroups isGroup
        exact independent_of_mem_containers (shape.of_group inNest)
          (eachSelector_of_group (eachSelector_atRule.mp viewportFree).1 inNest)
          (eachSelector_of_group (eachSelector_atRule.mp placeable).1 inNest) around

end Groups

/-! ## Sheets without container blocks -/

/-- The head is that of a container block. -/
def Head.isContainer : Head → Bool
  | .atRule name _ _ => name == "container"
  | _ => false

section Containers

variable {P : Head → Prop} {toggle : Toggle} {source : Option String} {head : Head}
  {settled : Bool} {children rest left right nodes : List Node}

theorem isContainerBlock_eq (source : Option String) (head : Head) (settled : Bool)
    (children : List Node) :
    (Node.block source head settled children).isContainerBlock = head.isContainer := by
  cases head <;> rfl

theorem noContainers_iff_eachHead :
    NoContainers nodes ↔ EachHead (fun head => head.isContainer = false) nodes := by
  induction nodes using forest_induction with
  | nil => simp [NoContainers, eachHead_nil]
  | leaf source content rest ofRest =>
      rw [eachHead_leaf, ← ofRest]
      simp [NoContainers, Node.isContainerBlock]
  | block source head settled children rest ofChildren ofRest =>
      rw [eachHead_block, ← ofChildren, ← ofRest, ← isContainerBlock_eq source head settled children]
      exact forall_descendantsIn_block

theorem eachHead_forkedRules (around source : Option String) (selector : String)
    (ofRule : ∀ selector, P (.rule selector)) (leaves : ∀ child ∈ children, child.isLeaf) :
    EachHead P (toggle.forkedRules around source selector children) := by
  have converted := toggle.isLeaf_of_mem_convertedChildren source leaves
  rw [Toggle.forkedRules]
  split
  · exact eachHead_rule (ofRule _) leaves (eachHead_rule (ofRule _) converted eachHead_nil)
  · exact eachHead_rule (ofRule _) leaves eachHead_nil

theorem eachHead_addedContext (ofRule : ∀ selector, P (.rule selector)) (source : Option String)
    (nodes : List Node) : EachHead P (toggle.addedContext source nodes) := by
  rw [Toggle.addedContext]
  split
  · exact eachHead_rule (ofRule _) (by simp [Node.isLeaf]) eachHead_nil
  · exact eachHead_nil

variable (toggle) in
/-- Limiting nodes to the viewport changes no heads but those of rules. -/
theorem Toggle.eachHead_limitNodes (ofRule : ∀ selector, P (.rule selector)) (conditions : List String)
    (around : Option String) (flat : FlatRules nodes) (each : EachHead P nodes) :
    EachHead P (toggle.limitNodes conditions around nodes) := by
  induction nodes using nest_induction generalizing conditions around with
  | nil => exact eachHead_nil
  | media source params hasBlock settled children rest ofChildren ofRest =>
      rcases flatRules_atRule.mp flat with ⟨childrenFlat, restFlat⟩
      rcases eachHead_block.mp each with ⟨here, below, later⟩
      rw [Toggle.limitNodes_cons, eachHead_append]
      refine ⟨?_, ofRest conditions around restFlat later⟩
      cases holds : (Media.conditions toggle.hook params).value with
      | none =>
          rw [Toggle.limitNode_media_of_none _ _ _ _ _ _ holds]
          exact eachHead_block.mpr ⟨here, below, eachHead_nil⟩
      | some own =>
          rw [Toggle.limitNode_media_of_some _ _ _ _ _ _ holds]
          exact eachHead_block.mpr ⟨here, ofChildren _ source childrenFlat below, eachHead_nil⟩
  | other node rest isOther ofRest =>
      rcases forall_descendantsIn_cons.mp flat with ⟨nodeFlat, restFlat⟩
      rcases forall_descendantsIn_cons.mp each with ⟨here, later⟩
      rw [Toggle.limitNodes_cons, eachHead_append]
      refine ⟨?_, ofRest conditions around restFlat later⟩
      rw [Toggle.limitNode_other _ _ isOther]
      split
      · exact here
      · rw [← replaceRulesIn_singleton]
        refine eachHead_replaceRulesIn (fun _ ofHead => ofHead) ?_ false around nodeFlat here
        intro around source selector children leaves _
        split
        · exact eachHead_forkedRules around source selector ofRule leaves
        · exact eachHead_rule (ofRule _) leaves eachHead_nil

theorem previewsIndependent_append :
    PreviewsIndependent toggle (left ++ right) ↔
      PreviewsIndependent toggle left ∧ PreviewsIndependent toggle right :=
  forall_descendantsIn_append

theorem previewsIndependent_of_noContainers (noContainers : NoContainers nodes) :
    PreviewsIndependent toggle nodes := by
  intro node member isContainer
  rw [noContainers node member] at isContainer
  cases isContainer

theorem previewsIndependent_of_eachHead
    (each : EachHead (fun head => head.isContainer = false) nodes) :
    PreviewsIndependent toggle nodes :=
  previewsIndependent_of_noContainers (noContainers_iff_eachHead.mpr each)

/-- Container blocks without others in them are independent if what is in them is. -/
theorem previewsIndependent_of_containers
    (areContainers : ∀ container ∈ nodes, Independent toggle container.children ∧
      EachHead (fun head => head.isContainer = false) container.children) :
    PreviewsIndependent toggle nodes := by
  induction nodes with
  | nil => exact previewsIndependent_of_eachHead eachHead_nil
  | cons container rest inductionHypothesis =>
      rcases forall_mem_cons.mp areContainers with ⟨⟨independent, noInner⟩, areLater⟩
      have ofRest := inductionHypothesis areLater
      cases container with
      | leaf source content =>
          exact forall_descendantsIn_leaf.mpr ⟨Bool.noConfusion, ofRest⟩
      | block source head settled children =>
          exact forall_descendantsIn_block.mpr
            ⟨fun _ => independent, previewsIndependent_of_eachHead noInner, ofRest⟩

/-- The container blocks that a pass puts behind an outermost media block are
independent of the viewport. -/
theorem previewsIndependent_mediaOutcome (place : Place) {params : String} {hasBlock : Bool}
    (shape : MediaNodes children) (viewportFree : ViewportFree toggle children)
    (placeable : Placeable toggle children)
    (noContainers : EachHead (fun head => head.isContainer = false) children) :
    PreviewsIndependent toggle
      (toggle.mediaOutcome place (.block source (.atRule "media" params hasBlock) settled
        children)) := by
  have media : EachHead (fun head => head.isContainer = false)
      [.block source (.atRule "media" params hasBlock) settled children] :=
    eachHead_block.mpr ⟨rfl, noContainers, eachHead_nil⟩
  have flat : FlatRules [.block source (.atRule "media" params hasBlock) settled children] :=
    flatRules_atRule.mpr ⟨shape.flat, flatRules_nil⟩
  rw [Toggle.mediaOutcome, previewsIndependent_append]
  constructor
  · have limited := toggle.eachHead_limitNodes (fun _ => rfl) [] place.around flat media
    rw [Toggle.limitNodes_cons] at limited
    exact previewsIndependent_of_eachHead (eachHead_append.mp limited).1
  · refine previewsIndependent_of_containers fun container member => ?_
    rcases mem_flatMap.mp member with ⟨group, isGroup, isContainer⟩
    obtain ⟨own, isGroup⟩ := exists_mem_nestGroups isGroup
    have groupShape := shape.of_group isGroup
    constructor
    · exact independent_of_mem_containers groupShape (eachSelector_of_group viewportFree isGroup)
        (eachSelector_of_group placeable isGroup) place.around container isContainer
    · have noneInGroup := eachHead_of_group noContainers isGroup
      exact eachHead_of_mem_containers groupShape
        (fun node inGroup _ => eachHead_of_mem noneInGroup inGroup) (fun _ none => none)
        (fun _ _ => rfl) place.around container isContainer

/-- In what becomes of a plain sheet without container blocks, all of them are
independent of the viewport. -/
theorem previewsIndependent_outcomes (place : Place) (plain : Plain nodes)
    (unmarked : Unmarked nodes) (viewportFree : ViewportFree toggle nodes)
    (placeable : Placeable toggle nodes)
    (noContainers : EachHead (fun head => head.isContainer = false) nodes) :
    PreviewsIndependent toggle (toggle.outcomes toggle.mediaOutcome place nodes) := by
  induction nodes using forest_induction generalizing place with
  | nil => exact previewsIndependent_of_eachHead eachHead_nil
  | leaf source content rest ofRest =>
      have ofRest := ofRest place plain.tail (unmarked_leaf.mp unmarked)
        (eachSelector_leaf.mp viewportFree) (eachSelector_leaf.mp placeable)
        (eachHead_leaf.mp noContainers)
      rw [Toggle.outcomes, previewsIndependent_append]
      exact ⟨previewsIndependent_of_eachHead (eachHead_leaf.mpr eachHead_nil), ofRest⟩
  | block source head settled children rest ofChildren ofRest =>
      rcases unmarked_block.mp unmarked with ⟨rfl, childrenUnmarked, restUnmarked⟩
      rcases eachHead_block.mp noContainers with ⟨notHere, noneBelow, noneLater⟩
      have ofRest := ofRest place plain.tail restUnmarked (eachSelector_cons.mp viewportFree).2
        (eachSelector_cons.mp placeable).2 noneLater
      rw [Toggle.outcomes, previewsIndependent_append]
      refine ⟨?_, ofRest⟩
      cases head with
      | sheet => exact absurd rfl (plain.noSheet (.block source .sheet false children) (by simp))
      | rule selector =>
          have leaves := (flatRules_rule.mp plain.flat).1
          rw [Toggle.outcome]
          split
          · exact previewsIndependent_of_eachHead (eachHead_rule rfl leaves eachHead_nil)
          · exact previewsIndependent_of_eachHead
              (eachHead_forkedRules place.around source selector (fun _ => rfl) leaves)
      | atRule name params hasBlock =>
          have childrenFree := (eachSelector_atRule.mp viewportFree).1
          have childrenPlaceable := (eachSelector_atRule.mp placeable).1
          cases isMedia : (Head.atRule name params hasBlock).isMedia with
          | true =>
              have shape := plain.mediaNodes unmarked isMedia
              obtain rfl : name = "media" := by simpa [Head.isMedia] using isMedia
              exact previewsIndependent_mediaOutcome place shape childrenFree childrenPlaceable
                noneBelow
          | false =>
              have ofChildren := ofChildren (place.within source (.atRule name params hasBlock))
                plain.children childrenUnmarked childrenFree childrenPlaceable noneBelow
              simp only [Toggle.outcome, isMedia, Bool.false_eq_true, if_false]
              refine forall_descendantsIn_block.mpr ⟨?_, ofChildren, by simp⟩
              rw [isContainerBlock_eq, notHere]
              exact Bool.noConfusion

end Containers

/-! ## The whole sheet -/

/-- In a plain sheet without guards, nothing that a run puts in for the preview
depends on the viewport: neither the container block of any group of an outermost
media block nor, if the sheet has no container blocks of its own, any container
block at all. -/
theorem runToggle_preview (options : Options) (source : Option String) (settled : Bool)
    (children : List Node) (plain : Plain children)
    (unguarded : Unguarded (Toggle.ofOptions options) children)
    (placeable : Placeable (Toggle.ofOptions options) children) :
    (runToggle options (.block source .sheet settled children)).value =
        .block source .sheet false
          ((Toggle.ofOptions options).addedContext source children ++
            (Toggle.ofOptions options).outcomes (Toggle.ofOptions options).mediaOutcome
              (Place.outside.within source .sheet) (clearMarksIn children)) ∧
      (∀ unit ∈ unitsIn (Place.outside.within source .sheet) (clearMarksIn children),
        ∀ group ∈ unit.2.mediaGroups options.hook [],
          ∀ container ∈ group.containers (Toggle.ofOptions options) unit.1.around,
            Independent (Toggle.ofOptions options) container.children) ∧
      (NoContainers children → PreviewsIndependent (Toggle.ofOptions options)
        (runToggle options (.block source .sheet settled children)).value.children) := by
  have unmarked := unmarked_clearMarksIn children
  have clearedUnguarded : Unguarded (Toggle.ofOptions options) (clearMarksIn children) := by
    simpa [EachSelector] using unguarded
  have clearedPlaceable : Placeable (Toggle.ofOptions options) (clearMarksIn children) := by
    simpa [EachSelector] using placeable
  have viewportFree := viewportFree_of_unguarded clearedUnguarded
  have isRun : (runToggle options (.block source .sheet settled children)).value =
      .block source .sheet false
        ((Toggle.ofOptions options).addedContext source children ++
          (Toggle.ofOptions options).outcomes (Toggle.ofOptions options).mediaOutcome
            (Place.outside.within source .sheet) (clearMarksIn children)) := by
    rw [value_runToggle_sheet options source settled plain.flat,
      Toggle.outcomes_visitedMedia _ plain.clearMarksIn unmarked clearedUnguarded]
  refine ⟨isRun, ?_, ?_⟩
  · intro unit isUnit group isGroup
    have isBelow := (mem_of_mem_unitsIn isUnit).1
    exact independent_of_mem_mediaGroups (plain.clearMarksIn.of_mem isBelow)
      (forall_descendantsIn_of_mem unmarked isBelow) (eachSelector_of_mem viewportFree isBelow)
      (eachSelector_of_mem clearedPlaceable isBelow) isGroup unit.1.around
  · intro noContainers
    rw [isRun, Node.children, previewsIndependent_append]
    constructor
    · exact previewsIndependent_of_eachHead (eachHead_addedContext (fun _ => rfl) source children)
    · refine previewsIndependent_outcomes _ plain.clearMarksIn unmarked viewportFree
        clearedPlaceable (noContainers_iff_eachHead.mp ?_)
      simpa [NoContainers, descendantsIn_clearMarksIn] using noContainers

theorem runToggle_preview_nestedNodes :
    Plain nestedNodes ∧ Unguarded (Toggle.ofOptions {}) nestedNodes ∧
      Placeable (Toggle.ofOptions {}) nestedNodes ∧ NoContainers nestedNodes ∧
        PreviewsIndependent (Toggle.ofOptions {})
          (runToggle {} (.block none .sheet false nestedNodes)).value.children := by
  have plain : Plain nestedNodes := by decide
  have unguarded : Unguarded (Toggle.ofOptions {}) nestedNodes := by decide
  have placeable : Placeable (Toggle.ofOptions {}) nestedNodes := by decide
  have noContainers : NoContainers nestedNodes := by decide
  rcases runToggle_preview {} none false nestedNodes plain unguarded placeable with
    ⟨-, -, independent⟩
  exact ⟨plain, unguarded, placeable, noContainers, independent noContainers⟩

/-- A media block that is buried in another one. -/
def buriedMedia : List Node :=
  [blockAround "media" "(min-width: 600px)"
    [blockAround "supports" "(display: grid)"
      [blockAround "media" "(max-width: 900px)" [wideRule ".p" []]]]]

/-- A buried media block is copied into the preview, with a rule in it that is scoped
to the viewport, and the conditions of the two blocks are not combined. -/
theorem not_previewsIndependent :
    let preview := (runToggle {} (.block none .sheet false buriedMedia)).value.children
    NoContainers buriedMedia ∧
      (∃ container ∈ descendantsIn preview, container.isContainerBlock ∧
        ¬ NoMedia container.children ∧ ¬ ViewportFree (Toggle.ofOptions {}) container.children) ∧
      ∀ node ∈ descendantsIn preview, node.head? ≠
        some (.atRule "container" "(min-width: 600px) and (max-width: 900px)" true) := by
  decide +kernel

end ContainerPreview
