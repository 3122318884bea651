import ContainerPreview.Proofs.Toggle.Group
import ContainerPreview.Proofs.Value.Keyword

/-!
# Fixed positions after a pass

A pass copies declarations and converts the copies, but it never makes a position
fixed.  So a sheet without a fixed position has none after the pass either.
-/

namespace ContainerPreview

section Declarations

variable {source : Option String} {content : Leaf} {head : Head} {settled : Bool}
  {children rest left right : List Node}

theorem hasFixedPosition_append :
    hasFixedPosition (left ++ right) = (hasFixedPosition left || hasFixedPosition right) := by
  simp [hasFixedPosition]

theorem hasFixedPosition_cons {node : Node} :
    hasFixedPosition (node :: rest) = (hasFixedPosition [node] || hasFixedPosition rest) := by
  rw [← List.singleton_append, hasFixedPosition_append]

@[simp]
theorem hasFixedPosition_block :
    hasFixedPosition (.block source head settled children :: rest) =
      (hasFixedPosition children || hasFixedPosition rest) := by
  simp [hasFixedPosition, declarationsIn, Node.declaration?]

theorem hasFixedPosition_leaf :
    hasFixedPosition (.leaf source content :: rest) =
      ((match content with
        | .declaration declaration => declaration.isFixed
        | .comment _ => false) || hasFixedPosition rest) := by
  cases content <;> simp [hasFixedPosition, declarationsIn, Node.declaration?]

@[simp]
theorem hasFixedPosition_nil : hasFixedPosition [] = false :=
  rfl

theorem partwise_noFixedPosition : Partwise fun nodes => hasFixedPosition nodes = false where
  nil := rfl
  append := by simp [hasFixedPosition_append]

theorem hasFixedPosition_flatMap {α : Type} {parts : List α} {change : α → List Node}
    (ofEach : ∀ part ∈ parts, hasFixedPosition (change part) = false) :
    hasFixedPosition (parts.flatMap change) = false :=
  partwise_noFixedPosition.flatMap_iff.mpr ofEach

/-- Without a fixed position, no node has one. -/
theorem hasFixedPosition_of_mem {nodes : List Node} (noFixed : hasFixedPosition nodes = false)
    {node : Node} (member : node ∈ nodes) : hasFixedPosition [node] = false :=
  partwise_noFixedPosition.iff_forall_mem.mp noFixed node member

@[simp]
theorem hasFixedPosition_copyInto (file : Option String) (nodes : List Node) :
    hasFixedPosition (copyInto file nodes) = hasFixedPosition nodes := by
  induction nodes using forest_induction generalizing file with
  | nil => rfl
  | leaf source content rest ofRest =>
      rw [copyInto, Node.copy, Node.inherit, hasFixedPosition_leaf, hasFixedPosition_leaf, ofRest]
  | block source head settled children rest ofChildren ofRest =>
      simp [copyInto, Node.copy, Node.inherit, ofChildren, ofRest]

@[simp]
theorem hasFixedPosition_copy (node : Node) :
    hasFixedPosition [node.copy] = hasFixedPosition [node] := by
  cases node <;> simp [Node.copy]

end Declarations

/-- A variant of children without a fixed position has none. -/
theorem hasFixedPosition_nodesVariant (converter : Converter) (file : Option String)
    {nodes : List Node} (noFixed : hasFixedPosition nodes = false) :
    hasFixedPosition (nodesVariant converter false file nodes).value.nodes = false := by
  induction nodes using forest_induction generalizing file with
  | nil => rfl
  | leaf source content rest ofRest =>
      rw [hasFixedPosition_cons, Bool.or_eq_false_iff] at noFixed
      have ofRest := ofRest file noFixed.2
      simp only [nodesVariant, Traced.value_bind, Traced.value_pure, Variant.append]
      rw [hasFixedPosition_append, ofRest, Bool.or_false]
      cases content with
      | declaration declaration =>
          have notFixed : declaration.isFixed = false := by
            simpa [hasFixedPosition, declarationsIn, Node.declaration?] using noFixed.1
          have stillNot : (converter.convertDeclaration declaration).isFixed = false := by
            rw [Bool.eq_false_iff] at notFixed ⊢
            exact fun isFixed => notFixed (isFixed_of_convertDeclaration isFixed)
          simpa [nodeVariant, declarationVariant, convertedLeaf, Converter.traceDeclaration,
            hasFixedPosition, declarationsIn, Node.declaration?] using stillNot
      | comment text => rfl
  | block source head settled children rest ofChildren ofRest =>
      rw [hasFixedPosition_block, Bool.or_eq_false_iff] at noFixed
      simp [nodesVariant, nodeVariant, Variant.append, ofChildren source noFixed.1,
        ofRest file noFixed.2]

theorem hasFixedPosition_processChildren (converter : Converter) (file : Option String)
    {children : List Node} (noFixed : hasFixedPosition children = false) :
    hasFixedPosition (processChildren converter true file children).value.children = false := by
  simp only [processChildren, if_true, noFixed, Traced.value_bind, Traced.value_pure]
  exact hasFixedPosition_nodesVariant converter file noFixed

/-! ## Replaced rules -/

/-- A block has a fixed position if a node in it has, and a list if one of its
nodes has. -/
theorem hereditary_hasFixedPosition :
    Hereditary fun nodes => hasFixedPosition nodes = false where
  append := by
    intro left right
    rw [hasFixedPosition_append, Bool.or_eq_false_iff]
  children := by
    intro source head settled children noFixed
    rw [hasFixedPosition_block, Bool.or_eq_false_iff] at noFixed
    exact noFixed.1
  block := by
    intro source head settled before after _ _ noFixed
    rw [hasFixedPosition_block, noFixed]
    rfl

namespace Toggle

variable {toggle : Toggle}

theorem hasFixedPosition_viewportRule (around source : Option String) (selector : String)
    (settled : Bool) (children : List Node)
    (noFixed : hasFixedPosition [.block source (.rule selector) settled children] = false) :
    hasFixedPosition (toggle.viewportRule around source selector children) = false := by
  simpa [viewportRule] using noFixed

theorem hasFixedPosition_forkedRules (around source : Option String) (selector : String)
    (settled : Bool) (children : List Node)
    (noFixed : hasFixedPosition [.block source (.rule selector) settled children] = false) :
    hasFixedPosition (toggle.forkedRules around source selector children) = false := by
  have noneBelow := hereditary_hasFixedPosition.children noFixed
  have converted : hasFixedPosition (toggle.convertedChildren source children) = false :=
    hasFixedPosition_processChildren toggle.converter source (by simpa using noneBelow)
  unfold forkedRules
  split
  · simp [noneBelow, converted]
  · simp [noneBelow]

theorem hasFixedPosition_previewRule (around source : Option String) (selector : String)
    (settled : Bool) (children : List Node)
    (noFixed : hasFixedPosition [.block source (.rule selector) settled children] = false) :
    hasFixedPosition (toggle.previewRule around source selector children) = false := by
  have noneBelow := hereditary_hasFixedPosition.children noFixed
  simp [previewRule, hasFixedPosition_processChildren toggle.converter source noneBelow]

/-! ## Media blocks -/

variable (toggle) in
theorem hasFixedPosition_limitNodes (conditions : List String) (around : Option String)
    {nodes : List Node} (noFixed : hasFixedPosition nodes = false) :
    hasFixedPosition (toggle.limitNodes conditions around nodes) = false := by
  induction nodes using nest_induction generalizing conditions around with
  | nil => rfl
  | media source params hasBlock settled children rest ofChildren ofRest =>
      rw [hasFixedPosition_block, Bool.or_eq_false_iff] at noFixed
      rw [limitNodes_cons, hasFixedPosition_append, ofRest conditions around noFixed.2,
        Bool.or_false]
      cases holds : (Media.conditions toggle.hook params).value with
      | none =>
          rw [limitNode_media_of_none _ _ _ _ _ _ holds]
          simp [noFixed.1]
      | some own =>
          rw [limitNode_media_of_some _ _ _ _ _ _ holds]
          simp [ofChildren _ source noFixed.1]
  | other node rest isOther ofRest =>
      rw [hasFixedPosition_cons, Bool.or_eq_false_iff] at noFixed
      rw [limitNodes_cons, hasFixedPosition_append, ofRest conditions around noFixed.2,
        Bool.or_false, limitNode_other _ _ isOther]
      split
      · exact noFixed.1
      · rw [← replaceRulesIn_singleton]
        split
        · exact hereditary_hasFixedPosition.replaceRulesIn hasFixedPosition_forkedRules _ _
            noFixed.1
        · exact hereditary_hasFixedPosition.replaceRulesIn hasFixedPosition_viewportRule _ _
            noFixed.1

theorem hasFixedPosition_of_mem_mediaGroupsIn (hook : Option Media.Hook)
    (conditions : List String) {nodes : List Node} (noFixed : hasFixedPosition nodes = false) :
    ∀ group ∈ mediaGroupsIn hook conditions nodes, hasFixedPosition group.nodes = false := by
  intro group member
  have ofNest := (descendantsIn_sublist_of_mem member).filterMap Node.declaration?
  rw [hasFixedPosition, List.any_eq_false] at noFixed ⊢
  exact fun declaration inGroup => noFixed declaration (ofNest.subset inGroup)

theorem hasFixedPosition_containers (file : Option String) {group : MediaGroup}
    (noFixed : hasFixedPosition group.nodes = false) :
    hasFixedPosition (group.containers toggle file) = false := by
  rw [MediaGroup.containers]
  split
  · rfl
  · rw [hasFixedPosition_block, hasFixedPosition_nil, Bool.or_false]
    refine hasFixedPosition_flatMap fun node member => ?_
    rw [← replaceRulesIn_singleton]
    apply hereditary_hasFixedPosition.replaceRulesIn hasFixedPosition_previewRule
    rw [hasFixedPosition_copy]
    exact hasFixedPosition_of_mem noFixed (List.mem_of_mem_filter member)

theorem hasFixedPosition_mediaOutcome (place : Place) {media : Node}
    (noFixed : hasFixedPosition [media] = false) :
    hasFixedPosition (toggle.mediaOutcome place media) = false := by
  have limited := toggle.hasFixedPosition_limitNodes [] place.around noFixed
  have groups := hasFixedPosition_of_mem_mediaGroupsIn toggle.hook [] noFixed
  rw [limitNodes_cons, limitNodes, List.append_nil] at limited
  rw [mediaGroupsIn, mediaGroupsIn, List.append_nil] at groups
  rw [mediaOutcome, hasFixedPosition_append, limited, Bool.false_or]
  exact hasFixedPosition_flatMap fun group member =>
    hasFixedPosition_containers place.around (groups group member)

/-- A sheet without a fixed position has none in its outcome. -/
theorem hasFixedPosition_outcomes (place : Place) {nodes : List Node}
    (noFixed : hasFixedPosition nodes = false) :
    hasFixedPosition (toggle.outcomes toggle.mediaOutcome place nodes) = false := by
  induction nodes using forest_induction generalizing place with
  | nil => rfl
  | leaf source content rest ofRest =>
      rw [hasFixedPosition_cons, Bool.or_eq_false_iff] at noFixed
      rw [outcomes, outcome, List.singleton_append, hasFixedPosition_cons, noFixed.1,
        ofRest place noFixed.2]
      rfl
  | block source head settled children rest ofChildren ofRest =>
      have split := noFixed
      rw [hasFixedPosition_cons, Bool.or_eq_false_iff] at split
      rw [hasFixedPosition_block, Bool.or_eq_false_iff] at noFixed
      rw [outcomes, hasFixedPosition_append, ofRest place noFixed.2, Bool.or_false]
      cases head with
      | sheet => simp [outcome, Head.isMedia, ofChildren _ noFixed.1]
      | rule selector =>
          simp only [outcome]
          split
          · exact split.1
          · exact hasFixedPosition_forkedRules _ _ _ settled _ split.1
      | atRule name params hasBlock =>
          simp only [outcome]
          split
          · exact hasFixedPosition_mediaOutcome place split.1
          · simp [ofChildren _ noFixed.1]

end Toggle

end ContainerPreview
