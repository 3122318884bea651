import ContainerPreview.Proofs.Toggle.Fixed
import ContainerPreview.Proofs.Toggle.Limited
import ContainerPreview.Transform.Chain

/-!
# Running the pass twice

What a pass makes of a plain sheet without guards is at rest: its rules and media
blocks are, and so are the container blocks and the context rule that it put in.
A second pass finds nothing to do.
-/

namespace ContainerPreview

namespace Toggle

variable {toggle : Toggle}

/-! ## Container blocks at rest -/

/-- The container block of a group is at rest. -/
theorem restingNodes_containers (place : Place) (file : Option String) {group : MediaGroup}
    (shape : MediaNodes group.nodes) :
    toggle.restingNodes place (group.containers toggle file) := by
  rw [MediaGroup.containers]
  split
  · trivial
  · refine ⟨(restingNode_other rfl rfl).mpr (restingNodes_flatMap fun node member => ?_), trivial⟩
    rcases List.mem_filter.mp member with ⟨inGroup, isTreated⟩
    have simple := shape.simple_of_isTreated inGroup isTreated
    rw [← replaceRulesIn_singleton]
    apply restingNodes_of_simple
    · simp [Place.within, Head.isQuery]
    · exact hereditary_simple.replaceRulesIn simple_previewRule false none (simple_copy simple)

/-! ## Outcomes at rest -/

/-- The outcome of an outermost media block is at rest. -/
theorem restingNodes_mediaOutcome (place : Place) {source : Option String} {params : String}
    {hasBlock settled : Bool} {children : List Node} (shape : MediaNodes children)
    (unguarded : Unguarded toggle children) (named : Named children) :
    toggle.restingNodes place (toggle.mediaOutcome place
      (.block source (.atRule "media" params hasBlock) settled children)) := by
  rw [mediaOutcome, restingNodes_append]
  constructor
  · exact restingNodes_limitNode_media shape unguarded named [] place.around
      fun conditions place insideQuery =>
        restingNodes_limitNodes insideQuery shape unguarded named conditions source
  · refine restingNodes_flatMap fun group member => restingNodes_containers place place.around ?_
    obtain ⟨own, inNest⟩ := exists_mem_nestGroups member
    exact shape.of_group inNest

/-- The outcome of a plain sheet is at rest. -/
theorem restingNodes_outcomes (place : Place) {nodes : List Node} (plain : Plain nodes)
    (unmarked : Unmarked nodes) (unguarded : Unguarded toggle nodes) (named : Named nodes) :
    toggle.restingNodes place (toggle.outcomes toggle.mediaOutcome place nodes) := by
  induction nodes using forest_induction generalizing place with
  | nil => trivial
  | leaf source content rest ofRest =>
      exact ⟨trivial, ofRest place plain.tail (unmarked_leaf.mp unmarked)
        (eachSelector_leaf.mp unguarded) (eachSelector_leaf.mp named)⟩
  | block source head settled children rest ofChildren ofRest =>
      rcases unmarked_block.mp unmarked with ⟨-, childrenUnmarked, restUnmarked⟩
      rw [outcomes, restingNodes_append]
      refine ⟨?_, ofRest place plain.tail restUnmarked (eachSelector_cons.mp unguarded).2
        (eachSelector_cons.mp named).2⟩
      cases head with
      | sheet => exact absurd rfl (plain.noSheet (.block source .sheet settled children) (by simp))
      | rule selector =>
          have leaves := (flatRules_rule.mp plain.flat).1
          rw [outcome]
          by_cases skipped :
              (place.insideQuery || place.inKeyframes || toggle.isGuarded selector) = true
          · rw [if_pos skipped]
            simp only [Bool.or_eq_true] at skipped
            refine ⟨⟨leaves, ?_⟩, trivial⟩
            rcases skipped with (insideQuery | inKeyframes) | guarded
            · exact Or.inl insideQuery
            · exact Or.inr (Or.inl inKeyframes)
            · exact Or.inr (Or.inr (Or.inl guarded))
          · rw [if_neg skipped]
            exact restingNodes_forkedRules place place.around source leaves
              (eachSelector_rule.mp named).1
      | atRule name params hasBlock =>
          have childrenUnguarded := (eachSelector_atRule.mp unguarded).1
          have childrenNamed := (eachSelector_atRule.mp named).1
          cases isMedia : (Head.atRule name params hasBlock).isMedia with
          | true =>
              have shape := plain.mediaNodes unmarked isMedia
              obtain rfl : name = "media" := by simpa [Head.isMedia] using isMedia
              exact restingNodes_mediaOutcome place shape childrenUnguarded childrenNamed
          | false =>
              have ofChildren := ofChildren (place.within source (.atRule name params hasBlock))
                plain.children childrenUnmarked childrenUnguarded childrenNamed
              simp only [outcome, isMedia, Bool.false_eq_true, if_false]
              exact ⟨(restingNode_other rfl isMedia).mpr ofChildren, trivial⟩

/-! ## The context rule -/

theorem contains_self (text : String) : Text.contains text text = true :=
  Selector.occursIn_of_isPrefix (List.prefix_refl text.toList)

theorem isGuarded_previewGuard : toggle.isGuarded toggle.previewGuard = true := by
  simp [isGuarded, Selector.hasGuard, contains_self]

/-- The context rule is at rest. -/
theorem restingNodes_addedContext (place : Place) (source : Option String) (nodes : List Node) :
    toggle.restingNodes place (toggle.addedContext source nodes) := by
  unfold addedContext
  split
  · refine ⟨⟨?_, Or.inr (Or.inr (Or.inl isGuarded_previewGuard))⟩, trivial⟩
    simp [Node.isLeaf]
  · trivial

/-- A sheet without guards has no context rule. -/
theorem hasContextRule_eq_false_of_unguarded {nodes : List Node}
    (unguarded : Unguarded toggle nodes) : toggle.hasContextRule nodes = false := by
  rw [hasContextRule, List.any_eq_false]
  intro node member isContext
  have isSelector : toggle.previewGuard ∈ selectorsIn nodes :=
    List.mem_filterMap.mpr ⟨node, mem_descendantsIn member, by simpa using isContext⟩
  have notGuarded : toggle.isGuarded toggle.previewGuard = false := unguarded _ isSelector
  rw [isGuarded_previewGuard] at notGuarded
  cases notGuarded

/-- A second pass adds no context rule. -/
theorem neededContext_addedContext (place : Place) (source : Option String) {nodes : List Node}
    (unguarded : Unguarded toggle nodes) :
    toggle.neededContext source (toggle.addedContext source nodes ++
      toggle.outcomes toggle.mediaOutcome place (clearMarksIn nodes)) = [] := by
  rw [neededContext]
  cases fixed : hasFixedPosition nodes with
  | true =>
      have absent := hasContextRule_eq_false_of_unguarded unguarded
      rw [hasContextRule] at absent
      rw [addedContext, fixed, absent, hasContextRule]
      simp [Node.selector?]
  | false =>
      have notFixed : hasFixedPosition (clearMarksIn nodes) = false := by
        simpa [hasFixedPosition] using fixed
      have stillNot := toggle.hasFixedPosition_outcomes place notFixed
      simp [addedContext, fixed, stillNot]

end Toggle

/-! ## The second run -/

/-- What a run makes of a plain sheet without guards is at rest and needs no
context rule. -/
theorem resting_runToggle (options : Options) (source : Option String) (settled : Bool)
    {children : List Node} (plain : Plain children)
    (unguarded : Unguarded (Toggle.ofOptions options) children) (named : Named children) :
    ∃ nodes, (runToggle options (.block source .sheet settled children)).value =
        .block source .sheet false nodes ∧ Unmarked nodes ∧
      (Toggle.ofOptions options).restingNodes (Place.outside.within source .sheet) nodes ∧
        (Toggle.ofOptions options).neededContext source nodes = [] := by
  have clearedPlain := plain.clearMarksIn
  have unmarked := unmarked_clearMarksIn children
  have clearedUnguarded : Unguarded (Toggle.ofOptions options) (clearMarksIn children) := by
    simpa [EachSelector] using unguarded
  have clearedNamed : Named (clearMarksIn children) := by
    simpa [EachSelector] using named
  have ran := value_runToggle_sheet options source settled plain.flat
  rw [Toggle.outcomes_visitedMedia _ clearedPlain unmarked clearedUnguarded] at ran
  refine ⟨_, ran, ?_, ?_, ?_⟩
  · have cleared := ran
    rw [value_runToggle] at cleared
    injection cleared with _ _ _ sameNodes
    rw [← sameNodes]
    exact unmarked_clearMarksIn _
  · rw [Toggle.restingNodes_append]
    constructor
    · exact Toggle.restingNodes_addedContext _ source children
    · exact Toggle.restingNodes_outcomes _ clearedPlain unmarked clearedUnguarded clearedNamed
  · exact Toggle.neededContext_addedContext _ source unguarded

/-- A second run over what a run makes of a plain sheet without guards gives the
same sheet again, and its reporter counts neither rules nor fixed positions. -/
theorem runToggle_twice (options : Options) (source : Option String) (settled : Bool)
    (children : List Node) (plain : Plain children)
    (unguarded : Unguarded (Toggle.ofOptions options) children) (named : Named children) :
    let once := (runToggle options (.block source .sheet settled children)).value
    let reporter :=
      (Transform.reporter (.toggle options)).observeAll (runToggle options once).events
    (runToggle options once).value = once ∧
      reporter.stats.rules = 0 ∧ reporter.stats.fixed = 0 := by
  intro once reporter
  rcases resting_runToggle options source settled plain unguarded named with
    ⟨nodes, isOnce, unmarked, rest, noContext⟩
  rcases runToggle_of_resting options unmarked rest noContext with ⟨same, quiet⟩
  rw [← isOnce] at same quiet
  exact ⟨same, (Transform.reporter (.toggle options)).stats_observeAll_of_isQuiet quiet⟩

/-- Nodes of a sheet: rules that are forked and rules that are not, outside media
blocks and in a nest of them, with and without conditions. -/
def variedNodes : List Node :=
  [.block none (.rule "body") false
      [.leaf none (.declaration { property := "margin", value := "0" })],
    .block none (.rule ".hero, html .hero") false
      [.leaf none (.declaration { property := "height", value := "100vh" }),
        .leaf none (.declaration { property := "position", value := "fixed" })],
    .block none (.atRule "media" "screen" true) false
      [.block none (.rule "body .plain") false [],
        .block none (.rule ".wide") false
          [.leaf none (.declaration { property := "width", value := "50vw" })],
        .block none (.atRule "media" "(min-width: 600px)" true) false
          [.block none (.rule ".card") false
            [.leaf none (.declaration { property := "width", value := "10vw" })]],
        .block none (.atRule "media" "print" true) false
          [.block none (.rule ".page") false []]]]

theorem runToggle_twice_variedNodes :
    Plain variedNodes ∧ Unguarded (Toggle.ofOptions {}) variedNodes ∧ Named variedNodes ∧
      let once := (runToggle {} (.block none .sheet false variedNodes)).value
      let reporter := (Transform.reporter (.toggle {})).observeAll (runToggle {} once).events
      (runToggle {} once).value = once ∧
        reporter.stats.rules = 0 ∧ reporter.stats.fixed = 0 := by
  have plain : Plain variedNodes := by decide
  have unguarded : Unguarded (Toggle.ofOptions {}) variedNodes := by decide
  have named : Named variedNodes := by decide
  exact ⟨plain, unguarded, named,
    runToggle_twice {} none false variedNodes plain unguarded named⟩

end ContainerPreview
