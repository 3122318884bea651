import ContainerPreview.Proofs.Selector.Guard
import ContainerPreview.Proofs.Sheet.Growth
import ContainerPreview.Proofs.Toggle.Covers
import Mathlib.Logic.Relation

/-!
# The authored sheet under a pass

Whatever the shape of a sheet, a pass only lets it grow: it scopes selector lists
of rules, and puts variants behind rules and container blocks behind media
blocks.  A rule is scoped more than once if the pass comes upon it again, but its
selector list ends up as one of four.
-/

namespace ContainerPreview

namespace Toggle

variable (toggle : Toggle)

/-! ## Selector lists -/

/-- What happens to the selector list of a rule and to its mark when the pass
comes upon the rule.  It is forked only without a mark. -/
inductive Rescope : String × Bool → String × Bool → Prop
  /-- The rule is left as it is. -/
  | settle (selector : String) (settled : Bool) : Rescope (selector, settled) (selector, true)
  /-- The rule is scoped to the viewport unless it is guarded. -/
  | scope (selector : String) (settled : Bool) :
      Rescope (selector, settled) (toggle.scopeUnguarded selector, true)
  /-- The rule is scoped to the viewport beside its variant. -/
  | fork (selector : String) : Rescope (selector, false) (toggle.scopeToViewport selector, true)
  /-- The rule goes on to apply in both modes. -/
  | keep (selector : String) : Rescope (selector, false) (toggle.keepInBothModes selector, true)

/-- What happens to the selector list of a rule and to its mark in the course of
a pass. -/
abbrev Rescoped : String × Bool → String × Bool → Prop :=
  Relation.ReflTransGen toggle.Rescope

/-- The selector lists that a rule with the given one can end up with. -/
def finalSelectors (selector : String) : List String :=
  [selector, toggle.scopeToViewport selector, toggle.keepInBothModes selector,
    toggle.scopeToViewport (toggle.keepInBothModes selector)]

/-- A list that has been scoped to the viewport is not scoped again. -/
theorem scopeUnguarded_scopeToViewport (selector : String) :
    toggle.scopeUnguarded (toggle.scopeToViewport selector) = toggle.scopeToViewport selector := by
  by_cases names : Selector.selectorsOf selector.toList = []
  · have isEmpty : toggle.scopeToViewport selector = "" := Selector.addGuard_of_blank _ names
    rw [isEmpty, scopeUnguarded]
    split
    · rfl
    · exact Selector.addGuard_empty _
  · have guarded : toggle.isGuarded (toggle.scopeToViewport selector) = true := by
      rw [isGuarded, Selector.hasGuard, List.any_cons, Bool.or_eq_true]
      exact Or.inl (Selector.contains_addGuard names)
    rw [scopeUnguarded, if_pos guarded]

theorem scopeUnguarded_mem_finalSelectors {selector selector' : String}
    (member : selector' ∈ toggle.finalSelectors selector) :
    toggle.scopeUnguarded selector' ∈ toggle.finalSelectors selector := by
  have either : toggle.scopeUnguarded selector' = selector' ∨
      toggle.scopeUnguarded selector' = toggle.scopeToViewport selector' := by
    unfold scopeUnguarded
    split
    · exact Or.inl rfl
    · exact Or.inr rfl
  simp only [finalSelectors, List.mem_cons, List.not_mem_nil, or_false] at member
  rcases member with rfl | rfl | rfl | rfl
  · rcases either with same | scoped' <;> simp [*, finalSelectors]
  · simp [scopeUnguarded_scopeToViewport, finalSelectors]
  · rcases either with same | scoped' <;> simp [*, finalSelectors]
  · simp [scopeUnguarded_scopeToViewport, finalSelectors]

/-- A rule without a mark ends up with one of the final selector lists, and with
its own as long as it has no mark. -/
theorem mem_finalSelectors_of_rescoped {selector : String} {own : String × Bool}
    (rescoped : toggle.Rescoped (selector, false) own) :
    own.1 ∈ toggle.finalSelectors selector ∧ (own.2 = false → own.1 = selector) := by
  induction rescoped with
  | refl => exact ⟨by simp [finalSelectors], fun _ => rfl⟩
  | tail _ step inductionHypothesis =>
      rcases inductionHypothesis with ⟨isFinal, ofUnmarked⟩
      cases step with
      | settle => exact ⟨isFinal, by simp⟩
      | scope => exact ⟨toggle.scopeUnguarded_mem_finalSelectors isFinal, by simp⟩
      | fork between =>
          obtain rfl : between = selector := ofUnmarked rfl
          exact ⟨by simp [finalSelectors], by simp⟩
      | keep between =>
          obtain rfl : between = selector := ofUnmarked rfl
          exact ⟨by simp [finalSelectors], by simp⟩

/-! ## Steps of a pass -/

theorem grows_refl (nodes : List Node) : Grows toggle.Rescoped nodes nodes :=
  Grows.refl (fun _ => .refl) nodes

theorem grows_trans {before between after : List Node}
    (first : Grows toggle.Rescoped before between) (second : Grows toggle.Rescoped between after) :
    Grows toggle.Rescoped before after :=
  first.trans (fun _ _ _ => .trans) second

/-- The selector list that forking gives a rule. -/
theorem rescope_forkRule (around source : Option String) (selector : String)
    (children : List Node) :
    toggle.Rescope (selector, false)
      ((toggle.forkRule around source selector children).value.selector, true) := by
  unfold forkRule
  split
  · exact .fork selector
  · exact .keep selector

theorem isRule_of_mem_variants (around source : Option String) (selector : String)
    (children : List Node) :
    ∀ node ∈ (toggle.forkRule around source selector children).value.variants, node.isRule := by
  unfold forkRule
  split
  · simp [Node.isRule, Node.selector?]
  · simp

/-- Growth covers a pass. -/
theorem covers_grows : toggle.Covers (Grows toggle.Rescoped) where
  refl := toggle.grows_refl
  trans := toggle.grows_trans
  append := Grows.append
  rule ofChildren := .ruleAlone .refl ofChildren .nil
  block noRule ofChildren := .blockAlone noRule ofChildren .nil
  settle source selector settled children :=
    .ruleAlone (.single (.settle selector settled)) (toggle.grows_refl children) .nil
  scope source selector settled children :=
    .ruleAlone (.single (.scope selector settled)) (toggle.grows_refl children) .nil
  fork around source selector children := by
    rw [forkedRule, ← List.append_nil (Fork.variants _)]
    exact .rule (.single (toggle.rescope_forkRule around source selector children))
      (toggle.grows_refl children)
      (toggle.isRule_of_mem_variants around source selector children) .nil
  preview conditions around source params hasBlock children := by
    rw [← List.append_nil (List.map (Node.inherit around) _)]
    refine .block (by simp) (toggle.grows_refl children) ?_ .nil
    intro container member
    exact ⟨rfl, toggle.isContainerBlock_of_mem_after conditions source around children container
      member⟩

/-- If going below a node lets it grow, so does a walk over the nodes of a
block. -/
theorem grows_walkNodes {below : Place → Node → Traced Node}
    (ofBelow : ∀ place node, Grows toggle.Rescoped [node] [(below place node).value])
    (place : Place) (nodes : List Node) :
    Grows toggle.Rescoped nodes (toggle.walkNodes below place nodes).value :=
  toggle.covers_grows.walkNodes ofBelow place nodes

/-- A walk lets a node grow, to however many levels it goes. -/
theorem grows_walkBelow (levels : Nat) (place : Place) (node : Node) :
    Grows toggle.Rescoped [node] [(toggle.walkBelow levels place node).value] :=
  toggle.covers_grows.walkBelow levels place node

end Toggle

/-- A run lets the authored sheet grow, whatever its shape: every node keeps its
place among its neighbours and all that is written in it, except that a rule may
have its selector list scoped. -/
theorem runToggle_grows (options : Options) (source : Option String) (head : Head)
    (settled : Bool) (children : List Node) :
    ∃ nodes,
      (runToggle options (.block source head settled children)).value =
          .block source head false
            ((Toggle.ofOptions options).addedContext source children ++ nodes) ∧
        Grows (fun own own' => own'.1 ∈ (Toggle.ofOptions options).finalSelectors own.1) children
          nodes := by
  have walked := (Toggle.ofOptions options).grows_walkNodes
    ((Toggle.ofOptions options).grows_walkBelow
      (heightIn ((Toggle.ofOptions options).preparedNodes source children)))
    (Place.outside.within source head) (clearMarksIn children)
  refine ⟨_, ?_, walked.of_clearMarksIn
    fun rescoped => ((Toggle.ofOptions options).mem_finalSelectors_of_rescoped rescoped).1⟩
  rw [value_runToggle, Toggle.walkAll]
  generalize heightIn ((Toggle.ofOptions options).preparedNodes source children) = levels
  rw [Toggle.preparedNodes, Toggle.value_walkNodes_append, clearMarksIn_append,
    Toggle.walkNodes_neededContext, Toggle.clearMarksIn_neededContext]

end ContainerPreview
