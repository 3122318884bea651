import ContainerPreview.Proofs.Sheet.Shape

/-!
# Growth of trees

A tree grows if nodes are put into it and selector lists of rules are changed,
and nothing else happens: every node stays in the block it is in and in its
order among the nodes of that block, with all that is written in it.  Nodes are
put in only behind a rule, where they are rules, and behind a media block, where
they are container blocks.

Growth composes if the changes of selector lists do.
-/

namespace ContainerPreview

/-- The nodes `before` grow into the nodes `after`.  What may become of the
selector list and the mark of a rule is told by `change`. -/
inductive Grows (change : String × Bool → String × Bool → Prop) :
    List Node → List Node → Prop
  /-- There is nothing to grow. -/
  | nil : Grows change [] []
  /-- A leaf stays as it is. -/
  | leaf {source : Option String} {content : Leaf} {before after : List Node}
      (ofRest : Grows change before after) :
      Grows change (.leaf source content :: before) (.leaf source content :: after)
  /-- A rule has its selector list changed and rules put behind it. -/
  | rule {source : Option String} {selector selector' : String} {settled settled' : Bool}
      {children children' variants before after : List Node}
      (ofSelector : change (selector, settled) (selector', settled'))
      (ofChildren : Grows change children children')
      (areRules : ∀ node ∈ variants, node.isRule) (ofRest : Grows change before after) :
      Grows change (.block source (.rule selector) settled children :: before)
        (.block source (.rule selector') settled' children' :: (variants ++ after))
  /-- Another block keeps its head, and has container blocks put behind it if it
  is a media block. -/
  | block {source : Option String} {head : Head} {settled settled' : Bool}
      {children children' containers before after : List Node}
      (noRule : ∀ selector, head ≠ .rule selector) (ofChildren : Grows change children children')
      (areContainers : ∀ node ∈ containers, head.isMedia ∧ node.isContainerBlock)
      (ofRest : Grows change before after) :
      Grows change (.block source head settled children :: before)
        (.block source head settled' children' :: (containers ++ after))

/-- Whether a block is a container block is told by its head. -/
theorem isContainerBlock_block {source : Option String} {head : Head} {settled settled' : Bool}
    {children children' : List Node} :
    (Node.block source head settled' children').isContainerBlock =
      (Node.block source head settled children).isContainerBlock := by
  cases head <;> rfl

namespace Grows

variable {change : String × Bool → String × Bool → Prop}

/-! ## Nodes that stay alone -/

theorem ruleAlone {source : Option String} {selector selector' : String} {settled settled' : Bool}
    {children children' before after : List Node}
    (ofSelector : change (selector, settled) (selector', settled'))
    (ofChildren : Grows change children children') (ofRest : Grows change before after) :
    Grows change (.block source (.rule selector) settled children :: before)
      (.block source (.rule selector') settled' children' :: after) := by
  show Grows change _ (_ :: ([] ++ after))
  exact rule ofSelector ofChildren (List.forall_mem_nil _) ofRest

theorem blockAlone {source : Option String} {head : Head} {settled settled' : Bool}
    {children children' before after : List Node} (noRule : ∀ selector, head ≠ .rule selector)
    (ofChildren : Grows change children children') (ofRest : Grows change before after) :
    Grows change (.block source head settled children :: before)
      (.block source head settled' children' :: after) := by
  show Grows change _ (_ :: ([] ++ after))
  exact block noRule ofChildren (List.forall_mem_nil _) ofRest

/-- Without a change, nodes grow into themselves. -/
theorem refl (unchanged : ∀ own, change own own) (nodes : List Node) :
    Grows change nodes nodes := by
  induction nodes using forest_induction with
  | nil => exact nil
  | leaf source content rest ofRest => exact leaf ofRest
  | block source head settled children rest ofChildren ofRest =>
      cases head with
      | sheet => exact blockAlone (by simp) ofChildren ofRest
      | rule selector => exact ruleAlone (unchanged _) ofChildren ofRest
      | atRule name params hasBlock => exact blockAlone (by simp) ofChildren ofRest

/-! ## Parts of a list -/

theorem append {left left' right right' : List Node} (ofLeft : Grows change left left')
    (ofRight : Grows change right right') : Grows change (left ++ right) (left' ++ right') := by
  induction ofLeft with
  | nil => exact ofRight
  | leaf _ inductionHypothesis => exact leaf inductionHypothesis
  | rule ofSelector ofChildren areRules _ _ inductionHypothesis =>
      rw [List.cons_append, List.cons_append, List.append_assoc]
      exact rule ofSelector ofChildren areRules inductionHypothesis
  | block noRule ofChildren areContainers _ _ inductionHypothesis =>
      rw [List.cons_append, List.cons_append, List.append_assoc]
      exact block noRule ofChildren areContainers inductionHypothesis

/-- What two lists together grow into divides into what each grows into. -/
theorem exists_of_append {left right after : List Node} (grows : Grows change (left ++ right) after) :
    ∃ left' right', after = left' ++ right' ∧ Grows change left left' ∧
      Grows change right right' := by
  induction left generalizing after with
  | nil => exact ⟨[], after, rfl, nil, grows⟩
  | cons node rest inductionHypothesis =>
      cases grows with
      | leaf ofRest =>
          rcases inductionHypothesis ofRest with ⟨left', right', rfl, ofLeft, ofRight⟩
          exact ⟨_, right', rfl, leaf ofLeft, ofRight⟩
      | rule ofSelector ofChildren areRules ofRest =>
          rcases inductionHypothesis ofRest with ⟨left', right', rfl, ofLeft, ofRight⟩
          refine ⟨_, right', ?_, rule ofSelector ofChildren areRules ofLeft, ofRight⟩
          rw [List.cons_append, List.append_assoc]
      | @block source head _ settled' _ children' containers _ _ noRule ofChildren areContainers
          ofRest =>
          rcases inductionHypothesis ofRest with ⟨left', right', rfl, ofLeft, ofRight⟩
          refine ⟨.block source head settled' children' :: (containers ++ left'), right', ?_,
            block noRule ofChildren areContainers ofLeft, ofRight⟩
          rw [List.cons_append, List.append_assoc]

/-- Rules grow into rules. -/
theorem forall_isRule {before after : List Node} (grows : Grows change before after)
    (areRules : ∀ node ∈ before, node.isRule) : ∀ node ∈ after, node.isRule := by
  induction grows with
  | nil => exact areRules
  | leaf => simp [Node.isRule, Node.selector?] at areRules
  | rule _ _ variantsAreRules _ _ inductionHypothesis =>
      rw [List.forall_mem_cons] at areRules
      rw [List.forall_mem_cons, List.forall_mem_append]
      exact ⟨rfl, variantsAreRules, inductionHypothesis areRules.2⟩
  | block noRule =>
      have isRule := (List.forall_mem_cons.mp areRules).1
      rw [isRule_block_eq_false noRule] at isRule
      cases isRule

/-- Container blocks, put in under some condition, grow into container blocks
put in under that condition. -/
theorem forall_isContainerBlock {condition : Prop} {before after : List Node}
    (grows : Grows change before after)
    (areContainers : ∀ node ∈ before, condition ∧ node.isContainerBlock) :
    ∀ node ∈ after, condition ∧ node.isContainerBlock := by
  induction grows with
  | nil => exact areContainers
  | leaf => simp [Node.isContainerBlock] at areContainers
  | rule => simp [Node.isContainerBlock] at areContainers
  | block _ _ laterAreContainers _ _ inductionHypothesis =>
      rw [List.forall_mem_cons] at areContainers
      rcases areContainers with ⟨⟨holds, isContainer⟩, restAreContainers⟩
      rw [List.forall_mem_cons, List.forall_mem_append]
      refine ⟨⟨holds, ?_⟩, ?_, inductionHypothesis restAreContainers⟩
      · rw [isContainerBlock_block]
        exact isContainer
      · intro node member
        exact ⟨holds, (laterAreContainers node member).2⟩

/-! ## Growth upon growth -/

theorem trans (compose : ∀ own own' own'', change own own' → change own' own'' → change own own'')
    {before between after : List Node} (first : Grows change before between)
    (second : Grows change between after) : Grows change before after := by
  induction first generalizing after with
  | nil => exact second
  | leaf _ inductionHypothesis =>
      cases second with
      | leaf ofRest => exact leaf (inductionHypothesis ofRest)
  | rule ofSelector _ areRules _ ofChildren inductionHypothesis =>
      cases second with
      | rule ofSelector' ofChildren' areRules' ofRest' =>
          rcases exists_of_append ofRest' with ⟨variants, later, rfl, ofVariants, ofRest⟩
          rw [← List.append_assoc]
          refine rule (compose _ _ _ ofSelector ofSelector') (ofChildren ofChildren') ?_
            (inductionHypothesis ofRest)
          exact List.forall_mem_append.mpr ⟨areRules', ofVariants.forall_isRule areRules⟩
      | block noRule => exact absurd rfl (noRule _)
  | block noRule _ areContainers _ ofChildren inductionHypothesis =>
      cases second with
      | rule => exact absurd rfl (noRule _)
      | block _ ofChildren' areContainers' ofRest' =>
          rcases exists_of_append ofRest' with ⟨containers, later, rfl, ofContainers, ofRest⟩
          rw [← List.append_assoc]
          apply block noRule (ofChildren ofChildren')
          · refine List.forall_mem_append.mpr ⟨areContainers', ?_⟩
            exact ofContainers.forall_isContainerBlock areContainers
          · exact inductionHypothesis ofRest

/-! ## Marks -/

theorem isRule_of_mem_clearMarksIn {nodes : List Node} (areRules : ∀ node ∈ nodes, node.isRule) :
    ∀ node ∈ clearMarksIn nodes, node.isRule := by
  intro node member
  rcases mem_clearMarksIn.mp member with ⟨marked, isMarked, rfl⟩
  rw [isRule_clearMarks]
  exact areRules marked isMarked

/-- If nodes without marks grow, so do they with any marks, whatever becomes of
the marks. -/
theorem of_clearMarksIn {kept : String → String → Prop}
    (ofUnmarked : ∀ {selector own}, change (selector, false) own → kept selector own.1)
    {original after : List Node} (grows : Grows change (clearMarksIn original) after) :
    Grows (fun own own' => kept own.1 own'.1) original (clearMarksIn after) := by
  induction original using forest_induction generalizing after with
  | nil =>
      cases grows with
      | nil => exact nil
  | leaf source content rest ofRest =>
      rw [clearMarksIn, Node.clearMarks] at grows
      cases grows with
      | leaf restGrows => exact leaf (ofRest restGrows)
  | block source head settled children rest ofChildren ofRest =>
      rw [clearMarksIn, Node.clearMarks] at grows
      cases grows with
      | rule ofSelector childrenGrow areRules restGrows =>
          have ownKept := ofUnmarked ofSelector
          rw [clearMarksIn, Node.clearMarks, clearMarksIn_append]
          exact rule ownKept (ofChildren childrenGrow)
            (isRule_of_mem_clearMarksIn areRules) (ofRest restGrows)
      | block noRule childrenGrow areContainers restGrows =>
          rw [clearMarksIn, Node.clearMarks, clearMarksIn_append]
          apply block noRule (ofChildren childrenGrow)
          · intro container member
            rcases mem_clearMarksIn.mp member with ⟨marked, isMarked, rfl⟩
            rw [isContainerBlock_clearMarks]
            exact areContainers marked isMarked
          · exact ofRest restGrows

end Grows

end ContainerPreview
