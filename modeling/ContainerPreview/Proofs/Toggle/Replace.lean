import ContainerPreview.Proofs.Toggle.Outcome
import ContainerPreview.Proofs.Toggle.Walk

/-!
# Rules replaced where they stand

Scoping, forking and copying go through the nodes below a treated node and do
something to every rule that is not directly in keyframes.  In nodes whose rules
hold only declarations and comments, all three are replacements of rules in the
sense of `replaceRulesIn`, once the marks are removed.
-/

namespace ContainerPreview

section Equations

variable {change : RuleChange} {inKeyframes : Bool} {around source : Option String}
  {content : Leaf} {selector name params : String} {hasBlock settled : Bool}
  {children rest : List Node}

@[simp]
theorem replaceRulesIn_nil : replaceRulesIn change inKeyframes around [] = [] :=
  rfl

@[simp]
theorem replaceRulesIn_leaf :
    replaceRulesIn change inKeyframes around (.leaf source content :: rest) =
      .leaf source content :: replaceRulesIn change inKeyframes around rest :=
  rfl

@[simp]
theorem replaceRulesIn_rule :
    replaceRulesIn change inKeyframes around
        (.block source (.rule selector) settled children :: rest) =
      (if inKeyframes then [.block source (.rule selector) settled children]
        else change around source selector children) ++
          replaceRulesIn change inKeyframes around rest :=
  rfl

@[simp]
theorem replaceRulesIn_sheet :
    replaceRulesIn change inKeyframes around (.block source .sheet settled children :: rest) =
      .block source .sheet settled (replaceRulesIn change false source children) ::
        replaceRulesIn change inKeyframes around rest :=
  rfl

@[simp]
theorem replaceRulesIn_atRule :
    replaceRulesIn change inKeyframes around
        (.block source (.atRule name params hasBlock) settled children :: rest) =
      .block source (.atRule name params hasBlock) settled
          (replaceRulesIn change (Head.atRule name params hasBlock).isKeyframes source children) ::
        replaceRulesIn change inKeyframes around rest :=
  rfl

end Equations

theorem replaceRulesIn_singleton (change : RuleChange) (inKeyframes : Bool)
    (around : Option String) (node : Node) :
    replaceRulesIn change inKeyframes around [node] =
      node.replaceRules change inKeyframes around := by
  simp [replaceRulesIn]

/-- Without a rule to replace, nothing changes. -/
theorem replaceRulesIn_of_anyFreeRule_eq_false (change : RuleChange) {inKeyframes : Bool}
    (around : Option String) {nodes : List Node}
    (noRule : anyFreeRule inKeyframes nodes = false) :
    replaceRulesIn change inKeyframes around nodes = nodes := by
  induction nodes using forest_induction generalizing inKeyframes around with
  | nil => rfl
  | leaf source content rest ofRest =>
      simp only [anyFreeRule, Node.hasFreeRule, Bool.false_or] at noRule
      rw [replaceRulesIn_leaf, ofRest around noRule]
  | block source head settled children rest ofChildren ofRest =>
      rw [anyFreeRule, Bool.or_eq_false_iff] at noRule
      rcases noRule with ⟨notHere, notLater⟩
      cases head with
      | sheet =>
          have ofChildren := ofChildren source notHere
          rw [replaceRulesIn_sheet, ofRest around notLater]
          exact congrArg (fun nodes => .block source .sheet settled nodes :: rest) ofChildren
      | rule selector =>
          have isInKeyframes : inKeyframes = true := by
            simpa [Node.hasFreeRule] using (Bool.or_eq_false_iff.mp notHere).1
          rw [replaceRulesIn_rule, if_pos isInKeyframes, ofRest around notLater]
          rfl
      | atRule name params hasBlock =>
          rw [replaceRulesIn_atRule, ofChildren source notHere, ofRest around notLater]

/-- A node that is neither treated nor keyframes nor a media block has no rule
to replace. -/
theorem Node.replaceRules_of_not_isTreated (change : RuleChange) (around : Option String)
    {node : Node} (noSheet : node.head? ≠ some .sheet) (noMedia : node.isMedia = false)
    (noKeyframes : node.head?.any Head.isKeyframes = false) (untreated : node.isTreated = false) :
    node.replaceRules change false around = [node] := by
  rcases node with _ | ⟨source, _ | selector | ⟨name, params, hasBlock⟩, settled, children⟩
  · rfl
  · simp [Node.head?] at noSheet
  · cases untreated
  · have noRule : anyFreeRule false children = false := by
      simp_all [Node.isTreated, Node.isMedia, Node.head?]
    have isFalse : (Head.atRule name params hasBlock).isKeyframes = false := noKeyframes
    rw [Node.replaceRules, isFalse, replaceRulesIn_of_anyFreeRule_eq_false change source noRule]
    simp

/-- A condition that nodes hand down is kept if it is kept where a rule is
replaced. -/
theorem Hereditary.replaceRulesIn {condition : List Node → Prop}
    (hereditary : Hereditary condition) {change : RuleChange}
    (changed : ∀ around source selector settled children,
      condition [.block source (.rule selector) settled children] →
        condition (change around source selector children))
    (inKeyframes : Bool) (around : Option String) {nodes : List Node} (holds : condition nodes) :
    condition (replaceRulesIn change inKeyframes around nodes) := by
  induction nodes using forest_induction generalizing inKeyframes around with
  | nil => exact holds
  | leaf source content rest ofRest =>
      rw [← List.singleton_append, hereditary.append] at holds
      rw [replaceRulesIn_leaf, ← List.singleton_append, hereditary.append]
      exact ⟨holds.1, ofRest inKeyframes around holds.2⟩
  | block source head settled children rest ofChildren ofRest =>
      rw [← List.singleton_append, hereditary.append] at holds
      rcases holds with ⟨here, later⟩
      have below := hereditary.children here
      have ofRest := ofRest inKeyframes around later
      cases head with
      | sheet =>
          rw [replaceRulesIn_sheet, ← List.singleton_append, hereditary.append]
          exact ⟨hereditary.block (by simp) here (ofChildren _ source below), ofRest⟩
      | rule selector =>
          rw [replaceRulesIn_rule, hereditary.append]
          constructor
          · split
            · exact here
            · exact changed around source selector settled children here
          · exact ofRest
      | atRule name params hasBlock =>
          rw [replaceRulesIn_atRule, ← List.singleton_append, hereditary.append]
          exact ⟨hereditary.block (by simp) here (ofChildren _ source below), ofRest⟩

namespace Toggle

variable {toggle : Toggle}

/-! ## Rules that take the place of rules -/

theorem isLeaf_of_mem_convertedChildren (source : Option String) {children : List Node}
    (leaves : ∀ child ∈ children, child.isLeaf) :
    ∀ node ∈ toggle.convertedChildren source children, node.isLeaf :=
  isLeaf_of_mem_nodesVariant (isLeaf_of_mem_copyInto leaves)

theorem simple_viewportRule (around source : Option String) (selector : String) (settled : Bool)
    (children : List Node) (simple : Simple [.block source (.rule selector) settled children]) :
    Simple (toggle.viewportRule around source selector children) :=
  simple_rule.mpr ⟨(simple_rule.mp simple).1, simple_nil⟩

theorem simple_forkedRules (around source : Option String) (selector : String) (settled : Bool)
    (children : List Node) (simple : Simple [.block source (.rule selector) settled children]) :
    Simple (toggle.forkedRules around source selector children) := by
  have leaves := (simple_rule.mp simple).1
  unfold forkedRules
  split
  · exact simple_rule.mpr ⟨leaves,
      simple_rule.mpr ⟨isLeaf_of_mem_convertedChildren source leaves, simple_nil⟩⟩
  · exact simple_rule.mpr ⟨leaves, simple_nil⟩

theorem simple_previewRule (around source : Option String) (selector : String) (settled : Bool)
    (children : List Node) (simple : Simple [.block source (.rule selector) settled children]) :
    Simple (toggle.previewRule around source selector children) :=
  simple_rule.mpr ⟨isLeaf_of_mem_nodesVariant (simple_rule.mp simple).1, simple_nil⟩

/-! ## Scoping -/

theorem scopeNodes_of_leaves (inKeyframes : Bool) {nodes : List Node}
    (leaves : ∀ node ∈ nodes, node.isLeaf) : scopeNodes toggle inKeyframes nodes = nodes := by
  induction nodes, leaves using leaves_induction with
  | nil => rfl
  | leaf source content rest leaves ofRest => rw [scopeNodes, scopeNode, ofRest]

/-- Scoping nodes replaces every rule in them by the rule scoped to the
viewport. -/
theorem clearMarksIn_scopeNodes (inKeyframes : Bool) (around : Option String) {nodes : List Node}
    (flat : FlatRules nodes) (unmarked : Unmarked nodes) (unguarded : Unguarded toggle nodes) :
    clearMarksIn (scopeNodes toggle inKeyframes nodes) =
      replaceRulesIn toggle.viewportRule inKeyframes around nodes := by
  induction nodes using forest_induction generalizing inKeyframes around with
  | nil => rfl
  | leaf source content rest ofRest =>
      simp only [flatRules_leaf, unmarked_leaf, eachSelector_leaf] at flat unmarked unguarded
      simp [scopeNodes, scopeNode, clearMarksIn, Node.clearMarks,
        ofRest inKeyframes around flat unmarked unguarded]
  | block source head settled children rest ofChildren ofRest =>
      rcases unmarked_block.mp unmarked with ⟨rfl, childrenUnmarked, restUnmarked⟩
      cases head with
      | sheet =>
          rcases flatRules_sheet.mp flat with ⟨childrenFlat, restFlat⟩
          rcases eachSelector_sheet.mp unguarded with ⟨childrenUnguarded, restUnguarded⟩
          have ofChildren :=
            ofChildren false source childrenFlat childrenUnmarked childrenUnguarded
          have ofRest := ofRest inKeyframes around restFlat restUnmarked restUnguarded
          simp [scopeNodes, scopeNode, clearMarksIn, Node.clearMarks, Head.isKeyframes,
            ofChildren, ofRest]
      | rule selector =>
          rcases flatRules_rule.mp flat with ⟨leaves, -, restFlat⟩
          rcases eachSelector_rule.mp unguarded with ⟨selectorUnguarded, -, restUnguarded⟩
          have ofRest := ofRest inKeyframes around restFlat restUnmarked restUnguarded
          have cleared := clearMarksIn_of_unmarked childrenUnmarked
          cases inKeyframes <;>
            simp [scopeNodes, scopeNode, scopeNodes_of_leaves false leaves, scopeUnguarded,
              selectorUnguarded, scopeToViewport, viewportRule, clearMarksIn, Node.clearMarks,
              cleared, ofRest]
      | atRule name params hasBlock =>
          rcases flatRules_atRule.mp flat with ⟨childrenFlat, restFlat⟩
          rcases eachSelector_atRule.mp unguarded with ⟨childrenUnguarded, restUnguarded⟩
          have ofChildren := ofChildren (Head.atRule name params hasBlock).isKeyframes source
            childrenFlat childrenUnmarked childrenUnguarded
          have ofRest := ofRest inKeyframes around restFlat restUnmarked restUnguarded
          simp [scopeNodes, scopeNode, clearMarksIn, Node.clearMarks, ofChildren, ofRest]

/-! ## Forking -/

variable (toggle) in
/-- Without marks, a forked rule whose children are leaves is the rule and its
variants. -/
theorem clearMarksIn_forkedRule (around source : Option String) (selector : String)
    {children : List Node} (leaves : ∀ child ∈ children, child.isLeaf) :
    clearMarksIn (forkedRule (toggle.forkRule around source selector children).value source
        children) =
      toggle.forkedRules around source selector children := by
  have cleared := clearMarksIn_of_leaves (toggle.isLeaf_of_mem_convertedChildren source leaves)
  simp only [convertedChildren] at cleared
  unfold forkRule forkedRules
  split
  · simp [forkedRule, clearMarksIn, Node.clearMarks, clearMarksIn_of_leaves leaves,
      variantChildren, convertedChildren, cleared, scopeToViewport, scopeToPreview]
  · simp [forkedRule, clearMarksIn, Node.clearMarks, clearMarksIn_of_leaves leaves,
      keepInBothModes]

theorem forkNodes_of_leaves (inKeyframes : Bool) (around : Option String) {nodes : List Node}
    (leaves : ∀ node ∈ nodes, node.isLeaf) :
    forkNodes toggle inKeyframes around nodes = pure nodes := by
  induction nodes, leaves using leaves_induction with
  | nil => rfl
  | leaf source content rest leaves ofRest => simp [forkNodes, forkNode, ofRest]

variable (toggle) in
/-- Forking nodes replaces every rule in them by what forking makes of it. -/
theorem clearMarksIn_forkNodes (inKeyframes : Bool) (around : Option String) {nodes : List Node}
    (flat : FlatRules nodes) (unmarked : Unmarked nodes) :
    clearMarksIn (forkNodes toggle inKeyframes around nodes).value =
      replaceRulesIn toggle.forkedRules inKeyframes around nodes := by
  induction nodes using forest_induction generalizing inKeyframes around with
  | nil => rfl
  | leaf source content rest ofRest =>
      simp only [flatRules_leaf, unmarked_leaf] at flat unmarked
      simp [forkNodes, forkNode, clearMarksIn, Node.clearMarks,
        ofRest inKeyframes around flat unmarked]
  | block source head settled children rest ofChildren ofRest =>
      rcases unmarked_block.mp unmarked with ⟨rfl, childrenUnmarked, restUnmarked⟩
      cases head with
      | sheet =>
          rcases flatRules_sheet.mp flat with ⟨childrenFlat, restFlat⟩
          have ofChildren := ofChildren false source childrenFlat childrenUnmarked
          have ofRest := ofRest inKeyframes around restFlat restUnmarked
          simp [forkNodes, forkNode, clearMarksIn, Node.clearMarks, Head.isKeyframes, ofChildren,
            ofRest]
      | rule selector =>
          rcases flatRules_rule.mp flat with ⟨leaves, -, restFlat⟩
          have ofRest := ofRest inKeyframes around restFlat restUnmarked
          have cleared := clearMarksIn_of_unmarked childrenUnmarked
          have forked := toggle.clearMarksIn_forkedRule around source selector leaves
          cases inKeyframes with
          | true =>
              simp [forkNodes, forkNode, forkNodes_of_leaves _ _ leaves, clearMarksIn,
                Node.clearMarks, cleared, ofRest]
          | false =>
              simp [forkNodes, forkNode, forkNodes_of_leaves _ _ leaves, forked, ofRest]
      | atRule name params hasBlock =>
          rcases flatRules_atRule.mp flat with ⟨childrenFlat, restFlat⟩
          have ofChildren := ofChildren (Head.atRule name params hasBlock).isKeyframes source
            childrenFlat childrenUnmarked
          have ofRest := ofRest inKeyframes around restFlat restUnmarked
          simp [forkNodes, forkNode, clearMarksIn, Node.clearMarks, ofChildren, ofRest]

/-! ## Copying -/

theorem convertCopies_of_leaves (levels : Nat) (inKeyframes : Bool) {nodes : List Node}
    (leaves : ∀ node ∈ nodes, node.isLeaf) :
    toggle.convertCopies levels inKeyframes nodes = pure nodes := by
  cases levels with
  | zero => rfl
  | succ levels =>
      rw [convertCopies]
      induction nodes, leaves using leaves_induction with
      | nil => rfl
      | leaf source content rest leaves ofRest =>
          rw [List.mapM_cons, ofRest]
          rfl

theorem value_convertCopies_leaf (levels : Nat) (inKeyframes : Bool) (source : Option String)
    (content : Leaf) (rest : List Node) :
    (toggle.convertCopies levels inKeyframes (.leaf source content :: rest)).value =
      .leaf source content :: (toggle.convertCopies levels inKeyframes rest).value := by
  cases levels with
  | zero => rfl
  | succ levels => simp [convertCopies, convertCopy]

theorem value_convertCopies_block (levels : Nat) (inKeyframes : Bool) (source : Option String)
    (head : Head) (settled : Bool) (children rest : List Node) :
    (toggle.convertCopies (levels + 1) inKeyframes
        (.block source head settled children :: rest)).value =
      (toggle.convertCopy (toggle.convertCopies levels) inKeyframes
          (.block source head settled children)).value ::
        (toggle.convertCopies (levels + 1) inKeyframes rest).value := by
  simp [convertCopies]

variable (toggle) in
/-- Converting copies replaces every rule in them by the rule placed in the
preview, if all levels are converted. -/
theorem clearMarksIn_convertCopies {levels : Nat} (inKeyframes : Bool) (around : Option String)
    {nodes : List Node} (flat : FlatRules nodes) (unmarked : Unmarked nodes)
    (within : heightIn nodes ≤ levels) :
    clearMarksIn (toggle.convertCopies levels inKeyframes nodes).value =
      replaceRulesIn toggle.previewRule inKeyframes around nodes := by
  induction nodes using forest_induction generalizing levels inKeyframes around with
  | nil => cases levels <;> simp [convertCopies, clearMarksIn]
  | leaf source content rest ofRest =>
      simp only [flatRules_leaf, unmarked_leaf, heightIn_cons, height_leaf] at flat unmarked within
      rw [value_convertCopies_leaf, clearMarksIn,
        ofRest inKeyframes around flat unmarked (by omega)]
      rfl
  | block source head settled children rest ofChildren ofRest =>
      rcases unmarked_block.mp unmarked with ⟨rfl, childrenUnmarked, restUnmarked⟩
      simp only [heightIn_cons, height_block, Nat.max_le] at within
      rcases within with ⟨here, later⟩
      obtain ⟨levels, rfl⟩ : ∃ fewer, levels = fewer + 1 := ⟨levels - 1, by omega⟩
      have childrenWithin : heightIn children ≤ levels := Nat.le_of_succ_le_succ here
      rw [value_convertCopies_block, clearMarksIn]
      cases head with
      | sheet =>
          rcases flatRules_sheet.mp flat with ⟨childrenFlat, restFlat⟩
          have ofChildren := ofChildren false source childrenFlat childrenUnmarked childrenWithin
          rw [ofRest inKeyframes around restFlat restUnmarked later]
          simp [convertCopy, Node.clearMarks, Head.isKeyframes, ofChildren]
      | rule selector =>
          rcases flatRules_rule.mp flat with ⟨leaves, -, restFlat⟩
          have converted : ∀ node ∈ (toggle.variantChildren source children).value, node.isLeaf :=
            isLeaf_of_mem_nodesVariant leaves
          rw [ofRest inKeyframes around restFlat restUnmarked later]
          cases inKeyframes with
          | true =>
              simp [convertCopy, convertCopies_of_leaves levels _ leaves, Node.clearMarks,
                clearMarksIn_of_leaves leaves]
          | false =>
              simp only [convertCopy, Bool.false_eq_true, if_false, Traced.value_bind,
                Traced.value_pure, convertCopies_of_leaves levels _ converted, Node.clearMarks,
                clearMarksIn_of_leaves converted]
              rfl
      | atRule name params hasBlock =>
          rcases flatRules_atRule.mp flat with ⟨childrenFlat, restFlat⟩
          have ofChildren := ofChildren (Head.atRule name params hasBlock).isKeyframes source
            childrenFlat childrenUnmarked childrenWithin
          rw [ofRest inKeyframes around restFlat restUnmarked later]
          simp [convertCopy, Node.clearMarks, ofChildren]

/-! ## Treated nodes -/

/-- A treated node is scoped by scoping all rules in it. -/
theorem clearMarksIn_scopeTreated (around : Option String) {node : Node} (flat : FlatRules [node])
    (unmarked : Unmarked [node]) (unguarded : Unguarded toggle [node]) :
    clearMarksIn [toggle.scopeTreated node] =
      node.replaceRules toggle.viewportRule false around := by
  have scopedAll := clearMarksIn_scopeNodes false around flat unmarked unguarded
  rw [replaceRulesIn_singleton] at scopedAll
  rw [← scopedAll, scopeNodes, scopeNodes]
  rcases node with _ | ⟨source, _ | selector | _, settled, children⟩
  · rfl
  · rfl
  · rw [scopeTreated, scopeNode, scopeNodes_of_leaves false (flatRules_rule.mp flat).1]
    rfl
  · rfl

/-- A treated node is forked by forking all rules in it. -/
theorem clearMarksIn_forkTreated (around : Option String) {node : Node} (flat : FlatRules [node])
    (unmarked : Unmarked [node]) :
    clearMarksIn (toggle.forkTreated around node).value =
      node.replaceRules toggle.forkedRules false around := by
  have forked := toggle.clearMarksIn_forkNodes false around flat unmarked
  rw [replaceRulesIn_singleton] at forked
  rw [← forked]
  simp only [forkNodes, Traced.value_bind, Traced.value_pure, List.append_nil]
  rcases node with _ | ⟨source, _ | selector | _, settled, children⟩
  · rfl
  · rfl
  · rcases unmarked_block.mp unmarked with ⟨rfl, -, -⟩
    simp [forkTreated, forkNode, forkNodes_of_leaves false source (flatRules_rule.mp flat).1]
  · rfl

variable (toggle) in
/-- A treated node is copied by placing all rules in its copy in the preview. -/
theorem clearMarksIn_previewCopy {node : Node} (flat : FlatRules [node]) :
    clearMarksIn (toggle.previewCopy node).value =
      node.copy.replaceRules toggle.previewRule false none := by
  have within : heightIn [node.copy] ≤ node.copy.height := by simp
  have converted := toggle.clearMarksIn_convertCopies false none (flatRules_copy flat)
    (unmarked_copy node) within
  rw [replaceRulesIn_singleton] at converted
  rcases node with _ | ⟨source, _ | selector | _, settled, children⟩
  · exact converted
  · exact converted
  · have leaves : ∀ child ∈ copyInto source children, child.isLeaf :=
      isLeaf_of_mem_copyInto (flatRules_rule.mp flat).1
    have processed : ∀ node ∈ (toggle.variantChildren source (copyInto source children)).value,
        node.isLeaf :=
      isLeaf_of_mem_nodesVariant leaves
    simp only [previewCopy, Node.copy, Traced.value_bind, Traced.value_pure, clearMarksIn,
      Node.clearMarks, clearMarksIn_of_leaves processed]
    rfl
  · exact converted

end Toggle

end ContainerPreview
