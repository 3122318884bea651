import ContainerPreview.Proofs.Selector.Update
import ContainerPreview.Proofs.Toggle.Rest

/-!
# Limited nests at rest

What a pass makes of rules and of media blocks is at rest.  A rule that was
forked is guarded, and so is its variant; a rule that was not is guarded if it
names the container element, and is otherwise such that forking leaves it alone.

A media block is either recognised by a rule in it that is scoped to the
viewport, or there is no such rule.  In that case it had no rule to scope, and
the rules that were forked are such that forking leaves them alone.
-/

namespace ContainerPreview

theorem anyFreeRule_of_leaves {inKeyframes : Bool} {nodes : List Node}
    (leaves : ∀ node ∈ nodes, node.isLeaf) : anyFreeRule inKeyframes nodes = false := by
  induction nodes, leaves using leaves_induction with
  | nil => rfl
  | leaf source content rest leaves ofRest => exact ofRest

namespace Toggle

variable {toggle : Toggle}

/-! ## Parts of a list at rest -/

section Lists

variable {place : Place} {always inKeyframes : Bool} {left right : List Node}

theorem restingNodes_append :
    toggle.restingNodes place (left ++ right) ↔
      toggle.restingNodes place left ∧ toggle.restingNodes place right := by
  induction left with
  | nil => simp [restingNodes]
  | cons node rest inductionHypothesis => simp [restingNodes, inductionHypothesis, and_assoc]

theorem untouchedNodes_append :
    toggle.untouchedNodes always (left ++ right) ↔
      toggle.untouchedNodes always left ∧ toggle.untouchedNodes always right := by
  induction left with
  | nil => simp [untouchedNodes]
  | cons node rest inductionHypothesis => simp [untouchedNodes, inductionHypothesis, and_assoc]

theorem idleNodes_append :
    toggle.idleNodes inKeyframes (left ++ right) ↔
      toggle.idleNodes inKeyframes left ∧ toggle.idleNodes inKeyframes right := by
  induction left with
  | nil => simp [idleNodes]
  | cons node rest inductionHypothesis => simp [idleNodes, inductionHypothesis, and_assoc]

theorem restingNodes_flatMap {α : Type} {parts : List α} {change : α → List Node}
    (ofEach : ∀ part ∈ parts, toggle.restingNodes place (change part)) :
    toggle.restingNodes place (parts.flatMap change) :=
  have partwise : Partwise (toggle.restingNodes place) := ⟨trivial, restingNodes_append⟩
  partwise.flatMap_iff.mpr ofEach

end Lists

/-- In a media or container block, simple nodes are at rest. -/
theorem restingNodes_of_simple {place : Place} {nodes : List Node}
    (insideQuery : place.insideQuery = true) (simple : Simple nodes) :
    toggle.restingNodes place nodes := by
  rcases simple with ⟨flat, noMedia⟩
  induction nodes using forest_induction generalizing place with
  | nil => trivial
  | leaf source content rest ofRest =>
      exact ⟨trivial, ofRest insideQuery (flatRules_leaf.mp flat) (noMedia_leaf.mp noMedia)⟩
  | block source head settled children rest ofChildren ofRest =>
      rcases noMedia_block.mp noMedia with ⟨notHere, noneBelow, noneLater⟩
      have stillInside : (place.within source head).insideQuery = true := by
        simp [Place.within, insideQuery]
      cases head with
      | sheet =>
          rcases flatRules_sheet.mp flat with ⟨childrenFlat, restFlat⟩
          exact ⟨ofChildren stillInside childrenFlat noneBelow,
            ofRest insideQuery restFlat noneLater⟩
      | rule selector =>
          rcases flatRules_rule.mp flat with ⟨leaves, -, restFlat⟩
          exact ⟨⟨leaves, Or.inl insideQuery⟩, ofRest insideQuery restFlat noneLater⟩
      | atRule name params hasBlock =>
          rcases flatRules_atRule.mp flat with ⟨childrenFlat, restFlat⟩
          exact ⟨(restingNode_other rfl notHere).mpr
            (ofChildren stillInside childrenFlat noneBelow),
            ofRest insideQuery restFlat noneLater⟩

/-! ## Forked rules -/

/-- A rule that does not depend on the viewport is idle once it applies in both
modes, unless it is guarded then. -/
theorem idle_keepInBothModes {selector : String} {children : List Node}
    (noVariant : needsVariant toggle.converter children = false)
    (viewportFree : Text.contains (toggle.keepInBothModes selector) toggle.viewportGuard = false) :
    toggle.Idle (toggle.keepInBothModes selector) children := by
  have isGuard : toggle.viewportGuard ∈ [toggle.viewportGuard, toggle.previewGuard] :=
    List.mem_cons_self
  exact ⟨noVariant, Selector.updateAnchored_updateAnchored isGuard viewportFree⟩

theorem isGuarded_of_contains_viewportGuard {selector : String}
    (guarded : Text.contains selector toggle.viewportGuard = true) :
    toggle.isGuarded selector = true := by
  rw [isGuarded, Selector.hasGuard, List.any_cons, guarded]
  rfl

theorem isGuarded_scopeToPreview {selector : String}
    (named : Selector.selectorsOf selector.toList ≠ []) :
    toggle.isGuarded (toggle.scopeToPreview selector) = true := by
  have guarded : Text.contains (toggle.scopeToPreview selector) toggle.previewGuard = true :=
    Selector.contains_addGuard named
  simp [isGuarded, Selector.hasGuard, guarded]

/-- A forked rule is at rest with its variant. -/
theorem restingNodes_forkedRules (place : Place) (around source : Option String)
    {selector : String} {children : List Node} (leaves : ∀ child ∈ children, child.isLeaf)
    (named : Selector.selectorsOf selector.toList ≠ []) :
    toggle.restingNodes place (toggle.forkedRules around source selector children) := by
  unfold forkedRules
  by_cases variant : needsVariant toggle.converter children = true
  · rw [if_pos variant]
    refine ⟨⟨leaves, ?_⟩, ⟨isLeaf_of_mem_convertedChildren source leaves, ?_⟩, trivial⟩
    · exact Or.inr (Or.inr (Or.inl (isGuarded_of_contains_viewportGuard
        (Selector.contains_addGuard named))))
    · exact Or.inr (Or.inr (Or.inl (isGuarded_scopeToPreview named)))
  · rw [if_neg variant]
    rw [Bool.not_eq_true] at variant
    refine ⟨⟨leaves, Or.inr (Or.inr ?_)⟩, trivial⟩
    cases guarded : Text.contains (toggle.keepInBothModes selector) toggle.viewportGuard with
    | true => exact Or.inl (isGuarded_of_contains_viewportGuard guarded)
    | false => exact Or.inr (idle_keepInBothModes variant guarded)

/-! ## Rules in media blocks -/

/-- If scoping the rules of flat nodes leaves the guard of the viewport nowhere,
there was no rule to scope. -/
theorem anyFreeRule_eq_false_of_viewportFree {inKeyframes : Bool} (around : Option String)
    {nodes : List Node} (flat : FlatRules nodes) (named : Named nodes)
    (viewportFree : ViewportFree toggle
      (replaceRulesIn toggle.viewportRule inKeyframes around nodes)) :
    anyFreeRule inKeyframes nodes = false := by
  induction nodes using forest_induction generalizing inKeyframes around with
  | nil => rfl
  | leaf source content rest ofRest =>
      rw [replaceRulesIn_leaf] at viewportFree
      exact ofRest around (flatRules_leaf.mp flat) (eachSelector_leaf.mp named)
        (eachSelector_leaf.mp viewportFree)
  | block source head settled children rest ofChildren ofRest =>
      rw [anyFreeRule, Bool.or_eq_false_iff]
      cases head with
      | sheet =>
          rcases flatRules_sheet.mp flat with ⟨childrenFlat, restFlat⟩
          rcases eachSelector_sheet.mp named with ⟨childrenNamed, restNamed⟩
          rw [replaceRulesIn_sheet] at viewportFree
          rcases eachSelector_sheet.mp viewportFree with ⟨childrenFree, restFree⟩
          constructor
          · exact ofChildren source childrenFlat childrenNamed childrenFree
          · exact ofRest around restFlat restNamed restFree
      | rule selector =>
          rcases flatRules_rule.mp flat with ⟨leaves, -, restFlat⟩
          rcases eachSelector_rule.mp named with ⟨selectorNamed, -, restNamed⟩
          rw [replaceRulesIn_rule] at viewportFree
          rcases eachSelector_append.mp viewportFree with ⟨hereFree, restFree⟩
          constructor
          · cases inKeyframes with
            | true => simp [Node.hasFreeRule, anyFreeRule_of_leaves leaves]
            | false =>
                have notScoped := (eachSelector_rule.mp hereFree).1
                rw [Selector.contains_addGuard selectorNamed] at notScoped
                cases notScoped
          · exact ofRest around restFlat restNamed restFree
      | atRule name params hasBlock =>
          rcases flatRules_atRule.mp flat with ⟨childrenFlat, restFlat⟩
          rcases eachSelector_atRule.mp named with ⟨childrenNamed, restNamed⟩
          rw [replaceRulesIn_atRule] at viewportFree
          rcases eachSelector_atRule.mp viewportFree with ⟨childrenFree, restFree⟩
          constructor
          · exact ofChildren source childrenFlat childrenNamed childrenFree
          · exact ofRest around restFlat restNamed restFree

/-- A forked rule that the guard of the viewport is not in is idle. -/
theorem idleNodes_forkedRules {around source : Option String} {selector : String}
    {children : List Node} (named : Selector.selectorsOf selector.toList ≠ [])
    (viewportFree : ViewportFree toggle
      (toggle.forkedRules around source selector children)) :
    toggle.idleNodes false (toggle.forkedRules around source selector children) := by
  unfold forkedRules at viewportFree ⊢
  by_cases variant : needsVariant toggle.converter children = true
  · rw [if_pos variant] at viewportFree
    have notScoped := (eachSelector_rule.mp viewportFree).1
    rw [Selector.contains_addGuard named] at notScoped
    cases notScoped
  · rw [if_neg variant] at viewportFree ⊢
    have notGuarded := (eachSelector_rule.mp viewportFree).1
    rw [Bool.not_eq_true] at variant
    exact ⟨Or.inr (idle_keepInBothModes variant notGuarded), trivial⟩

/-- Forked nodes without the guard of the viewport are idle. -/
theorem idleNodes_of_viewportFree {inKeyframes : Bool} (around : Option String)
    {nodes : List Node} (named : Named nodes)
    (viewportFree : ViewportFree toggle
      (replaceRulesIn toggle.forkedRules inKeyframes around nodes)) :
    toggle.idleNodes inKeyframes (replaceRulesIn toggle.forkedRules inKeyframes around nodes) := by
  induction nodes using forest_induction generalizing inKeyframes around with
  | nil => trivial
  | leaf source content rest ofRest =>
      rw [replaceRulesIn_leaf] at viewportFree
      exact ⟨trivial, ofRest around (eachSelector_leaf.mp named)
        (eachSelector_leaf.mp viewportFree)⟩
  | block source head settled children rest ofChildren ofRest =>
      cases head with
      | sheet =>
          rcases eachSelector_sheet.mp named with ⟨childrenNamed, restNamed⟩
          rw [replaceRulesIn_sheet] at viewportFree
          rcases eachSelector_sheet.mp viewportFree with ⟨childrenFree, restFree⟩
          exact ⟨ofChildren source childrenNamed childrenFree, ofRest around restNamed restFree⟩
      | rule selector =>
          rcases eachSelector_rule.mp named with ⟨selectorNamed, -, restNamed⟩
          rw [replaceRulesIn_rule] at viewportFree ⊢
          rcases eachSelector_append.mp viewportFree with ⟨hereFree, restFree⟩
          rw [idleNodes_append]
          constructor
          · cases inKeyframes with
            | true => exact ⟨Or.inl rfl, trivial⟩
            | false => exact idleNodes_forkedRules selectorNamed hereFree
          · exact ofRest around restNamed restFree
      | atRule name params hasBlock =>
          rcases eachSelector_atRule.mp named with ⟨childrenNamed, restNamed⟩
          rw [replaceRulesIn_atRule] at viewportFree
          rcases eachSelector_atRule.mp viewportFree with ⟨childrenFree, restFree⟩
          exact ⟨ofChildren source childrenNamed childrenFree, ofRest around restNamed restFree⟩

/-! ## Nests at rest -/

/-- A node without a free rule in it is not treated. -/
theorem isTreated_of_hasFreeRule_eq_false {node : Node} (noRule : node.hasFreeRule false = false) :
    node.isTreated = false := by
  rcases node with _ | ⟨source, _ | selector | ⟨name, params, hasBlock⟩, settled, children⟩
  · rfl
  · rfl
  · cases noRule
  · cases isKeyframes : (Head.atRule name params hasBlock).isKeyframes with
    | true => simp [Node.isTreated, isKeyframes]
    | false =>
        have noneBelow : anyFreeRule false children = false := by
          simpa [Node.hasFreeRule, isKeyframes] using noRule
        simp [Node.isTreated, noneBelow]

/-- Treating leaves a node of another kind alone if it is not treated. -/
theorem untouchedNode_of_not_isTreated (always : Bool) {node : Node} (simple : Simple [node])
    (untreated : node.isTreated = false) : toggle.untouchedNode always node := by
  cases node with
  | leaf source content => trivial
  | block source head settled children =>
      apply (untouchedNode_other (noMedia_block.mp simple.noMedia).1).mpr
      refine ⟨simple, fun treated => ?_⟩
      rw [untreated] at treated
      cases treated

/-- Treating under no condition leaves idle nodes alone. -/
theorem untouchedNodes_of_idle {nodes : List Node} (simple : Simple nodes)
    (idle : toggle.idleNodes false nodes) : toggle.untouchedNodes true nodes := by
  induction nodes with
  | nil => trivial
  | cons node rest inductionHypothesis =>
      rw [← List.singleton_append, simple_append] at simple
      constructor
      · cases node with
        | leaf source content => trivial
        | block source head settled children =>
            exact (untouchedNode_other (noMedia_block.mp simple.1.noMedia).1).mpr
              ⟨simple.1, fun _ => ⟨rfl, idle.1⟩⟩
      · exact inductionHypothesis simple.2 idle.2

/-- Under fewer conditions no more is treated. -/
theorem untouchedNodes_mono {conditional always : Bool} {nodes : List Node}
    (untouched : toggle.untouchedNodes conditional nodes) (fewer : conditional → always) :
    toggle.untouchedNodes always nodes := by
  induction nodes using nest_induction generalizing conditional always with
  | nil => trivial
  | media source params hasBlock settled children rest ofChildren ofRest =>
      constructor
      · cases holds : (Media.conditions toggle.hook params).value with
        | none => simp [untouchedNode, holds]
        | some own =>
            have here := untouched.1
            rw [untouchedNode_media_of_some holds] at here ⊢
            apply ofChildren here
            simpa using fun isConditional isEmpty => ⟨fewer isConditional, isEmpty⟩
      · exact ofRest untouched.2 fewer
  | other node rest isOther ofRest =>
      constructor
      · cases node with
        | leaf source content => trivial
        | block source head settled children =>
            rcases (untouchedNode_other isOther).mp untouched.1 with ⟨simple, ofTreated⟩
            refine (untouchedNode_other isOther).mpr ⟨simple, fun treated => ?_⟩
            rcases ofTreated treated with ⟨isConditional, idle⟩
            exact ⟨fewer isConditional, idle⟩
      · exact ofRest untouched.2 fewer

/-! ## Limited nests -/

/-- What becomes of a simple node is simple. -/
theorem simple_limitNode_other (conditions : List String) (around : Option String)
    {node : Node} (isOther : node.isMedia = false) (simple : Simple [node]) :
    Simple (toggle.limitNode conditions around node) := by
  rw [limitNode_other _ _ isOther]
  split
  · exact simple
  · rw [← replaceRulesIn_singleton]
    split
    · exact hereditary_simple.replaceRulesIn simple_forkedRules false around simple
    · exact hereditary_simple.replaceRulesIn simple_viewportRule false around simple

/-- Without the guard of the viewport in it, what becomes of a node of another
kind is left alone by treating. -/
theorem untouchedNodes_limitNode_other (conditions : List String) (around : Option String)
    {node : Node} (isOther : node.isMedia = false) (simple : Simple [node])
    (named : Named [node])
    (viewportFree : ViewportFree toggle (toggle.limitNode conditions around node)) :
    toggle.untouchedNodes conditions.isEmpty (toggle.limitNode conditions around node) := by
  have limited := toggle.simple_limitNode_other conditions around isOther simple
  rw [limitNode_other _ _ isOther] at limited viewportFree ⊢
  by_cases keyframes : node.head?.any Head.isKeyframes = true
  · rw [if_pos keyframes]
    refine ⟨untouchedNode_of_not_isTreated _ simple ?_, trivial⟩
    cases treated : node.isTreated with
    | false => rfl
    | true =>
        rw [noKeyframes_of_isTreated treated] at keyframes
        cases keyframes
  · rw [if_neg keyframes, ← replaceRulesIn_singleton] at limited viewportFree ⊢
    cases always : conditions.isEmpty with
    | true =>
        rw [always, if_pos rfl] at limited viewportFree
        rw [if_pos rfl]
        exact untouchedNodes_of_idle limited
          (idleNodes_of_viewportFree around named viewportFree)
    | false =>
        rw [always, if_neg Bool.false_ne_true] at viewportFree
        rw [if_neg Bool.false_ne_true]
        have noRule := anyFreeRule_eq_false_of_viewportFree around simple.flat named viewportFree
        rw [replaceRulesIn_of_anyFreeRule_eq_false _ around noRule]
        refine ⟨untouchedNode_of_not_isTreated _ simple ?_, trivial⟩
        exact isTreated_of_hasFreeRule_eq_false (Bool.or_eq_false_iff.mp noRule).1

/-- Without the guard of the viewport in it, a limited nest is left alone by
treating. -/
theorem untouchedNodes_limitNodes {nodes : List Node} (shape : MediaNodes nodes)
    (named : Named nodes) (conditions : List String) (around : Option String)
    (viewportFree : ViewportFree toggle (toggle.limitNodes conditions around nodes)) :
    toggle.untouchedNodes conditions.isEmpty (toggle.limitNodes conditions around nodes) := by
  induction nodes using nest_induction generalizing conditions around with
  | nil => trivial
  | media source params hasBlock settled children rest ofChildren ofRest =>
      rcases eachSelector_atRule.mp named with ⟨childrenNamed, restNamed⟩
      rw [limitNodes_cons] at viewportFree ⊢
      rcases eachSelector_append.mp viewportFree with ⟨hereFree, restFree⟩
      rw [untouchedNodes_append]
      constructor
      · cases holds : (Media.conditions toggle.hook params).value with
        | none =>
            rw [limitNode_media_of_none _ _ _ _ _ _ holds]
            simp [untouchedNodes, untouchedNode, holds]
        | some own =>
            rw [limitNode_media_of_some _ _ _ _ _ _ holds] at hereFree ⊢
            have childrenFree := (eachSelector_atRule.mp hereFree).1
            constructor
            · rw [untouchedNode_media_of_some holds, ← Media.isEmpty_combine]
              exact ofChildren shape.children childrenNamed _ source childrenFree
            · exact trivial
      · exact ofRest shape.tail restNamed conditions around restFree
  | other node rest isOther ofRest =>
      rcases eachSelector_cons.mp named with ⟨nodeNamed, restNamed⟩
      rw [limitNodes_cons] at viewportFree ⊢
      rcases eachSelector_append.mp viewportFree with ⟨hereFree, restFree⟩
      rw [untouchedNodes_append]
      constructor
      · exact untouchedNodes_limitNode_other conditions around isOther
          (shape.head_simple isOther) nodeNamed hereFree
      · exact ofRest shape.tail restNamed conditions around restFree

/-- A limited media block is at rest if its limited nodes are at rest in it. -/
theorem restingNodes_limitNode_media {place : Place} {source : Option String} {params : String}
    {hasBlock settled : Bool} {children : List Node} (shape : MediaNodes children)
    (unguarded : Unguarded toggle children) (named : Named children) (conditions : List String)
    (around : Option String)
    (ofChildren : ∀ conditions place, place.insideQuery = true →
      toggle.restingNodes place (toggle.limitNodes conditions source children)) :
    toggle.restingNodes place (toggle.limitNode conditions around
      (.block source (.atRule "media" params hasBlock) settled children)) := by
  cases holds : (Media.conditions toggle.hook params).value with
  | none =>
      have noViewport := viewportFree_iff.mp (viewportFree_of_unguarded unguarded)
      rw [limitNode_media_of_none _ _ _ _ _ _ holds]
      simp [restingNodes, restingNode, noViewport, holds]
  | some own =>
      rw [limitNode_media_of_some _ _ _ _ _ _ holds]
      constructor
      · rw [restingNode]
        split
        · exact ofChildren _ _ (by simp [Place.within, Head.isQuery])
        · rename_i noViewport
          rw [Bool.not_eq_true] at noViewport
          have untouched := untouchedNodes_limitNodes shape named (Media.combine conditions own)
            source (viewportFree_iff.mpr noViewport)
          rw [holds]
          apply untouchedNodes_mono untouched
          rw [Media.isEmpty_combine, Bool.and_eq_true]
          exact And.right
      · exact trivial

/-- A limited nest is at rest. -/
theorem restingNodes_limitNodes {place : Place} {nodes : List Node}
    (insideQuery : place.insideQuery = true) (shape : MediaNodes nodes)
    (unguarded : Unguarded toggle nodes) (named : Named nodes) (conditions : List String)
    (around : Option String) :
    toggle.restingNodes place (toggle.limitNodes conditions around nodes) := by
  induction nodes using nest_induction generalizing place conditions around with
  | nil => trivial
  | media source params hasBlock settled children rest ofChildren ofRest =>
      rcases eachSelector_atRule.mp unguarded with ⟨childrenUnguarded, restUnguarded⟩
      rcases eachSelector_atRule.mp named with ⟨childrenNamed, restNamed⟩
      rw [limitNodes_cons, restingNodes_append]
      constructor
      · exact restingNodes_limitNode_media shape.children childrenUnguarded childrenNamed
          conditions around fun inner place stillInside =>
            ofChildren stillInside shape.children childrenUnguarded childrenNamed inner source
      · exact ofRest insideQuery shape.tail restUnguarded restNamed conditions around
  | other node rest isOther ofRest =>
      rcases eachSelector_cons.mp unguarded with ⟨-, restUnguarded⟩
      rcases eachSelector_cons.mp named with ⟨-, restNamed⟩
      rw [limitNodes_cons, restingNodes_append]
      constructor
      · exact restingNodes_of_simple insideQuery
          (simple_limitNode_other conditions around isOther (shape.head_simple isOther))
      · exact ofRest insideQuery shape.tail restUnguarded restNamed conditions around

end Toggle

end ContainerPreview
