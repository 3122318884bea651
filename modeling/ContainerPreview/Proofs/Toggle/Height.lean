import ContainerPreview.Proofs.Sheet.Height
import ContainerPreview.Proofs.Toggle.Nest
import ContainerPreview.Transform.Toggle.Pass

/-!
# The bound on a walk

A walk gets a bound on the number of levels it goes down.  No visit makes a
node higher, nor puts a higher node after it, so any bound that is at least the
height of a node gives the same walk.
-/

namespace ContainerPreview

/-! ## Heights of variants and copies -/

theorem heightIn_declarationVariant (converter : Converter) (fixed : Bool)
    (file source : Option String) (declaration : Declaration) :
    heightIn (declarationVariant converter fixed file source declaration).value.nodes = 0 := by
  unfold declarationVariant
  split
  · rfl
  · split <;> rfl

@[simp]
theorem heightIn_nodesVariant (converter : Converter) (fixed : Bool) (file : Option String)
    (nodes : List Node) :
    heightIn (nodesVariant converter fixed file nodes).value.nodes = heightIn nodes := by
  induction nodes using forest_induction generalizing file with
  | nil => rfl
  | leaf source content rest ofRest =>
      cases content with
      | declaration declaration =>
          simp [nodesVariant, nodeVariant, Variant.append, heightIn_declarationVariant, ofRest]
      | comment text => simp [nodesVariant, nodeVariant, Variant.append, Variant.ofNode, ofRest]
  | block source head settled children rest ofChildren ofRest =>
      simp [nodesVariant, nodeVariant, Variant.append, ofChildren, ofRest]

namespace Toggle

variable (toggle : Toggle)

@[simp]
theorem heightIn_variantChildren (file : Option String) (children : List Node) :
    heightIn (toggle.variantChildren file children).value = heightIn children := by
  simp [variantChildren, processChildren]

theorem heightIn_scopeNodes (inKeyframes : Bool) (nodes : List Node) :
    heightIn (scopeNodes toggle inKeyframes nodes) = heightIn nodes := by
  induction nodes using forest_induction generalizing inKeyframes with
  | nil => rfl
  | leaf source content rest ofRest => simp [scopeNodes, scopeNode, ofRest]
  | block source head settled children rest ofChildren ofRest =>
      rcases head with _ | selector | ⟨name, params, hasBlock⟩
      · simp [scopeNodes, scopeNode, ofChildren, ofRest]
      · cases inKeyframes <;> simp [scopeNodes, scopeNode, ofChildren, ofRest]
      · simp [scopeNodes, scopeNode, ofChildren, ofRest]

theorem heightIn_scopeTreated (node : Node) : (toggle.scopeTreated node).height = node.height := by
  have ofNode := toggle.heightIn_scopeNodes false [node]
  rcases node with _ | ⟨source, _ | _ | _, settled, children⟩
  · rfl
  · simpa [scopeNodes, scopeTreated] using ofNode
  · rfl
  · simpa [scopeNodes, scopeTreated] using ofNode

/-- The variants of a rule are no higher than the rule. -/
theorem heightIn_variants_le (around source : Option String) (selector : String)
    (children : List Node) :
    heightIn (toggle.forkRule around source selector children).value.variants ≤
      heightIn children + 1 := by
  unfold forkRule
  split <;> simp

theorem heightIn_forkNodes_le (inKeyframes : Bool) (around : Option String) (nodes : List Node) :
    heightIn (forkNodes toggle inKeyframes around nodes).value ≤ heightIn nodes := by
  induction nodes using forest_induction generalizing inKeyframes around with
  | nil => simp [forkNodes]
  | leaf source content rest ofRest => simpa [forkNodes, forkNode] using ofRest _ _
  | block source head settled children rest ofChildren ofRest =>
      have restLe := ofRest inKeyframes around
      rcases head with _ | selector | ⟨name, params, hasBlock⟩
      · have childrenLe := ofChildren Head.sheet.isKeyframes source
        simp only [forkNodes, forkNode, Traced.value_bind, Traced.value_pure, heightIn_append,
          heightIn_cons, height_block, heightIn_nil]
        omega
      · have childrenLe := ofChildren false source
        have variantsLe := toggle.heightIn_variants_le around source selector children
        simp only [forkNodes, forkNode]
        split
        · simp only [Traced.value_bind, Traced.value_pure, heightIn_append, heightIn_cons,
            height_block, heightIn_nil]
          omega
        · simp only [Traced.value_bind, Traced.value_pure, heightIn_append, heightIn_cons,
            height_block, forkedRule]
          omega
      · have childrenLe := ofChildren (Head.atRule name params hasBlock).isKeyframes source
        simp only [forkNodes, forkNode, Traced.value_bind, Traced.value_pure, heightIn_append,
          heightIn_cons, height_block, heightIn_nil]
        omega

/-- The nodes that forking a treated node leaves are no higher than it. -/
theorem heightIn_forkTreated_le (around : Option String) (node : Node) :
    heightIn (toggle.forkTreated around node).value ≤ node.height := by
  have ofNode := toggle.heightIn_forkNodes_le false around [node]
  rcases node with _ | ⟨source, _ | selector | _, settled, children⟩
  · simpa [forkNodes, forkTreated] using ofNode
  · simpa [forkNodes, forkTreated] using ofNode
  · have variantsLe := toggle.heightIn_variants_le around source selector children
    simp only [forkTreated]
    split
    · simp
    · simp only [Traced.value_bind, Traced.value_pure, forkedRule, heightIn_cons, height_block]
      omega
  · simpa [forkNodes, forkTreated] using ofNode

/-- Converting copies keeps their heights, to however many levels they are
converted. -/
theorem heightIn_convertCopies (levels : Nat) (inKeyframes : Bool) (nodes : List Node) :
    heightIn (toggle.convertCopies levels inKeyframes nodes).value = heightIn nodes := by
  induction levels generalizing inKeyframes nodes with
  | zero => rfl
  | succ levels inductionHypothesis =>
      induction nodes with
      | nil => simp [convertCopies]
      | cons node rest ofRest =>
          simp only [convertCopies, Traced.value_mapM, List.map_cons, heightIn_cons] at ofRest ⊢
          rw [ofRest]
          congr 1
          rcases node with _ | ⟨source, _ | selector | _, settled, children⟩
          · rfl
          · simp [convertCopy, inductionHypothesis]
          · cases inKeyframes <;> simp [convertCopy, inductionHypothesis]
          · simp [convertCopy, inductionHypothesis]

theorem heightIn_previewCopy (node : Node) :
    heightIn (toggle.previewCopy node).value = node.height := by
  have ofCopy := toggle.heightIn_convertCopies node.copy.height false [node.copy]
  rcases node with _ | ⟨source, _ | selector | _, settled, children⟩
  · simpa [previewCopy, Node.copy] using ofCopy
  · simpa [previewCopy, Node.copy] using ofCopy
  · simp [previewCopy, Node.copy]
  · simpa [previewCopy, Node.copy] using ofCopy

/-! ## Heights of treated nodes -/

theorem heightIn_allContainers_le {treatment : Treatment} {levels : Nat}
    (copies : heightIn treatment.copies ≤ levels)
    (containers : heightIn treatment.containers ≤ levels + 1) (conditions : List String) :
    heightIn (treatment.allContainers conditions) ≤ levels + 1 := by
  rw [Treatment.allContainers_eq]
  split
  · simpa using containers
  · simp only [heightIn_append, heightIn_cons, height_block, heightIn_nil]
    omega

/-- What treating makes of nodes is no higher than they are. -/
theorem heightIn_treatNodes_le (conditions : List String) (around : Option String)
    (nodes : List Node) :
    heightIn (treatNodes toggle conditions around nodes).nodes ≤ heightIn nodes ∧
      heightIn (treatNodes toggle conditions around nodes).copies ≤ heightIn nodes ∧
        heightIn (treatNodes toggle conditions around nodes).containers ≤ heightIn nodes := by
  induction nodes using nest_induction generalizing conditions around with
  | nil => simp
  | media source params hasBlock settled children rest ofChildren ofRest =>
      rcases ofRest conditions around with ⟨restNodes, restCopies, restContainers⟩
      simp only [treatNodes_cons, Treatment.nodes_append, Treatment.copies_append,
        Treatment.containers_append, heightIn_append, heightIn_cons, height_block]
      cases holds : (Media.conditions toggle.hook params).value with
      | none =>
          rw [toggle.treatNode_media_of_none _ _ _ _ _ _ holds]
          simp only [heightIn_cons, height_block, heightIn_settleMediaIn, heightIn_nil]
          omega
      | some own =>
          rcases ofChildren (Media.combine conditions own) source with
            ⟨ownNodes, ownCopies, ownContainers⟩
          have ownLe := heightIn_allContainers_le ownCopies (by omega)
            (Media.combine conditions own)
          rw [toggle.treatNode_media_of_some _ _ _ _ _ _ holds]
          simp only [Treatment.ofBlock, heightIn_cons, height_block, heightIn_nil]
          omega
  | other node rest isOther ofRest =>
      rcases ofRest conditions around with ⟨restNodes, restCopies, restContainers⟩
      have forkedLe := toggle.heightIn_forkTreated_le around node
      have scopedEq := toggle.heightIn_scopeTreated node
      have copiedEq := toggle.heightIn_previewCopy node
      simp only [treatNodes_cons, treatNode_other toggle conditions around isOther,
        Treatment.nodes_append, Treatment.copies_append, Treatment.containers_append,
        heightIn_append, heightIn_cons]
      split
      · simp only [treat]
        split <;> simp only [heightIn_cons, heightIn_nil] <;> omega
      · simp only [Treatment.keep, heightIn_cons, heightIn_nil]
        omega

/-! ## Heights of visited nodes -/

/-- A visit neither makes a node higher nor puts a higher one after it. -/
theorem height_visit_le (place : Place) (node : Node) :
    (toggle.visit place node).value.node.height ≤ node.height ∧
      heightIn (toggle.visit place node).value.after ≤ node.height := by
  unfold visit
  split
  · rename_i source selector settled children
    have variantsLe := toggle.heightIn_variants_le place.around source selector children
    simp only [visitRule]
    split
    · simp
    · split
      · simp
      · simpa using variantsLe
  · rename_i source params hasBlock children
    simp only [visitMedia]
    split
    · simp
    · simp only [Traced.value_bind, height_block]
      split
      · simp
      · rename_i conditions _
        rcases toggle.heightIn_treatNodes_le conditions source children with
          ⟨nodesLe, copiesLe, containersLe⟩
        have allLe := heightIn_allContainers_le copiesLe (by omega) conditions
        simp only [Traced.value_bind, Traced.value_pure, height_block, heightIn_map_inherit]
        omega
  · simp

/-! ## Walks within a bound -/

theorem walkNodes_congr {below below' : Place → Node → Traced Node} {levels : Nat}
    (same : ∀ place node, node.height ≤ levels → below place node = below' place node)
    (place : Place) {nodes : List Node} (within : heightIn nodes ≤ levels) :
    toggle.walkNodes below place nodes = toggle.walkNodes below' place nodes := by
  induction nodes with
  | nil => rfl
  | cons node rest inductionHypothesis =>
      simp only [heightIn_cons, Nat.max_le] at within
      rcases toggle.height_visit_le place node with ⟨nodeLe, afterLe⟩
      have sameNode := same place _ (Nat.le_trans nodeLe within.1)
      have sameAfter : (toggle.visit place node).value.after.mapM (below place) =
          (toggle.visit place node).value.after.mapM (below' place) := by
        refine Traced.mapM_congr fun added member => same place added ?_
        exact Nat.le_trans (height_le_heightIn member) (Nat.le_trans afterLe within.1)
      simp only [walkNodes, inductionHypothesis within.2]
      apply Traced.bind_congr
      rw [sameNode, sameAfter]

theorem walkBelow_succ {levels : Nat} (place : Place) {node : Node}
    (within : node.height ≤ levels) :
    toggle.walkBelow (levels + 1) place node = toggle.walkBelow levels place node := by
  induction levels generalizing place node with
  | zero =>
      cases node with
      | leaf source content => rfl
      | block source head settled children => simp at within
  | succ levels inductionHypothesis =>
      cases node with
      | leaf source content => rfl
      | block source head settled children =>
          have childrenWithin : heightIn children ≤ levels := by simpa using within
          simp only [walkBelow]
          rw [toggle.walkNodes_congr (fun place node => inductionHypothesis place) _ childrenWithin]

/-- All bounds that are at least the height of a node give the same walk. -/
theorem walkBelow_eq_of_height_le {levels : Nat} (place : Place) {node : Node}
    (within : node.height ≤ levels) :
    toggle.walkBelow levels place node = toggle.walkBelow node.height place node := by
  induction within with
  | refl => rfl
  | step within inductionHypothesis =>
      rw [toggle.walkBelow_succ place within, inductionHypothesis]

end Toggle

end ContainerPreview
