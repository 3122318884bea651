import ContainerPreview.Proofs.Toggle.Concat
import ContainerPreview.Proofs.Toggle.Growth
import ContainerPreview.Proofs.Toggle.MediaOutcome

/-!
# Media blocks for print

A media block that is for print alone never holds on a screen.  A pass leaves it
as it is, with all that is in it, wherever it comes upon the block: among other
nodes, or directly in a media block.  There are two exceptions.  A block of
another kind that stands in a media block and has rules in it is treated as a
whole, so that media blocks buried in it lose what they had; and a block with a
rule that is scoped to the viewport already is not told apart from the output of
an earlier pass.
-/

namespace ContainerPreview

/-! ## Media lists for print -/

namespace Media

theorem value_gather_of_never (hook : Option Hook) {queries : List String}
    (never : ∀ query ∈ queries, appliesToScreen query = false) :
    (gather hook queries).value = some [] := by
  induction queries with
  | nil => rfl
  | cons query queries inductionHypothesis =>
      rcases List.forall_mem_cons.mp never with ⟨notHere, notLater⟩
      rw [gather, notHere]
      exact inductionHypothesis notLater

/-- A list that is for print alone never holds on a screen, whatever the hook. -/
theorem value_conditions_of_isPrintOnly (hook : Option Hook) {params : String}
    (printOnly : isPrintOnly params) : (conditions hook params).value = none := by
  simp only [isPrintOnly, Bool.and_eq_true, Bool.not_eq_true', List.any_eq_false,
    Bool.not_eq_true] at printOnly
  rw [conditions, Traced.value_bind, value_gather_of_never hook printOnly.2]
  rfl

end Media

/-- The node is a media block for print alone. -/
def Node.isPrintOnly : Node → Bool
  | .block _ (.atRule "media" params _) _ _ => Media.isPrintOnly params
  | _ => false

/-! ## Where media blocks are left as they are -/

/-- What becomes of nodes without marks if media blocks that never hold on a screen
are left as they are.  The flag tells whether the nodes stand directly in a media
block. -/
inductive Spares (toggle : Toggle) : Bool → List Node → List Node → Prop
  | nil {inMedia : Bool} : Spares toggle inMedia [] []
  | leaf {inMedia : Bool} {source : Option String} {content : Leaf} {before after : List Node}
      (ofRest : Spares toggle inMedia before after) :
      Spares toggle inMedia (.leaf source content :: before) (.leaf source content :: after)
  /-- A rule becomes a rule with others behind it. -/
  | rule {inMedia : Bool} {source : Option String} {selector selector' : String}
      {children children' variants before after : List Node}
      (ofChildren : Spares toggle false children children')
      (areRules : ∀ node ∈ variants, node.isRule) (ofRest : Spares toggle inMedia before after) :
      Spares toggle inMedia (.block source (.rule selector) false children :: before)
        (.block source (.rule selector') false children' :: (variants ++ after))
  /-- A media block that never holds on a screen stays as it is, with all that is
  in it. -/
  | never {inMedia : Bool} {source : Option String} {params : String} {hasBlock : Bool}
      {children before after : List Node}
      (never : (Media.conditions toggle.hook params).value = none)
      (ofRest : Spares toggle inMedia before after) :
      Spares toggle inMedia
        (.block source (.atRule "media" params hasBlock) false children :: before)
        (.block source (.atRule "media" params hasBlock) false children :: after)
  /-- Another media block has container blocks put behind it.  It can be one that
  never holds on a screen only if a rule in it is scoped to the viewport. -/
  | media {inMedia : Bool} {source : Option String} {params : String} {hasBlock : Bool}
      {children children' containers before after : List Node}
      (ofNever : (Media.conditions toggle.hook params).value = none →
        ¬ ViewportFree toggle children)
      (ofChildren : Spares toggle true children children')
      (areContainers : ∀ node ∈ containers, node.isContainerBlock)
      (ofRest : Spares toggle inMedia before after) :
      Spares toggle inMedia
        (.block source (.atRule "media" params hasBlock) false children :: before)
        (.block source (.atRule "media" params hasBlock) false children' :: (containers ++ after))
  /-- A block that is not treated as a whole is gone into. -/
  | other {inMedia : Bool} {source : Option String} {head : Head}
      {children children' before after : List Node} (noRule : ∀ selector, head ≠ .rule selector)
      (noMedia : head.isMedia = false)
      (untreated : inMedia → (Node.block source head false children).isTreated = false)
      (ofChildren : Spares toggle false children children')
      (ofRest : Spares toggle inMedia before after) :
      Spares toggle inMedia (.block source head false children :: before)
        (.block source head false children' :: after)
  /-- Of a block that is treated as a whole only the head is sure to stay. -/
  | treated {source : Option String} {name params : String} {hasBlock : Bool}
      {children children' before after : List Node}
      (isTreated : (Node.block source (.atRule name params hasBlock) false children).isTreated)
      (ofRest : Spares toggle true before after) :
      Spares toggle true (.block source (.atRule name params hasBlock) false children :: before)
        (.block source (.atRule name params hasBlock) false children' :: after)

namespace Spares

variable {toggle : Toggle} {inMedia : Bool} {before after left left' right right' : List Node}

theorem append (ofLeft : Spares toggle inMedia left left')
    (ofRight : Spares toggle inMedia right right') :
    Spares toggle inMedia (left ++ right) (left' ++ right') := by
  induction ofLeft with
  | nil => exact ofRight
  | leaf _ ofRest => exact leaf (ofRest ofRight)
  | rule ofChildren areRules _ _ ofRest =>
      rw [List.cons_append, List.cons_append, List.append_assoc]
      exact rule ofChildren areRules (ofRest ofRight)
  | never isNever _ ofRest => exact never isNever (ofRest ofRight)
  | media ofNever ofChildren areContainers _ _ ofRest =>
      rw [List.cons_append, List.cons_append, List.append_assoc]
      exact media ofNever ofChildren areContainers (ofRest ofRight)
  | other noRule noMedia untreated ofChildren _ _ ofRest =>
      exact other noRule noMedia untreated ofChildren (ofRest ofRight)
  | treated isTreated _ ofRest => exact treated isTreated (ofRest ofRight)

/-- In a media block no more nodes are gone into than elsewhere. -/
theorem inside (spares : Spares toggle false before after) : Spares toggle inMedia before after := by
  generalize isFlag : false = elsewhere at spares
  induction spares with
  | nil => exact nil
  | leaf _ ofRest => exact leaf (ofRest isFlag)
  | rule ofChildren areRules _ _ ofRest => exact rule ofChildren areRules (ofRest isFlag)
  | never isNever _ ofRest => exact never isNever (ofRest isFlag)
  | media ofNever ofChildren areContainers _ _ ofRest =>
      exact media ofNever ofChildren areContainers (ofRest isFlag)
  | @other _ source head children _ _ _ noRule noMedia _ ofChildren _ _ ofRest =>
      cases inMedia with
      | false => exact other noRule noMedia (by simp) ofChildren (ofRest isFlag)
      | true =>
          cases isTreated : (Node.block source head false children).isTreated with
          | false => exact other noRule noMedia (fun _ => isTreated) ofChildren (ofRest isFlag)
          | true =>
              cases head with
              | sheet => cases isTreated
              | rule selector => exact absurd rfl (noRule selector)
              | atRule name params hasBlock => exact treated isTreated (ofRest isFlag)
  | treated => cases isFlag

end Spares

/-! ## Shares -/

namespace Toggle

variable (toggle : Toggle)

/-- In a media or container block, nodes with all media blocks marked have
themselves as shares. -/
theorem flatMap_walkShare_of_mediaSettled {place : Place} (insideQuery : place.insideQuery = true)
    {nodes : List Node} (settledMedia : MediaSettled nodes) :
    nodes.flatMap (toggle.walkShare place) = clearMarksIn nodes := by
  rw [← toggle.clearMarksIn_walkNodes_eq_flatMap place (Nat.le_refl _),
    toggle.walkNodes_of_mediaSettled insideQuery _ settledMedia, Traced.value_pure]

theorem isContainerBlock_walkInto (place : Place) {node : Node}
    (isContainer : node.isContainerBlock) : (toggle.walkInto place node).isContainerBlock := by
  rcases node with _ | ⟨source, _ | selector | ⟨name, params, hasBlock⟩, settled, children⟩
  · cases isContainer
  · cases isContainer
  · cases isContainer
  · rw [walkInto_block]
    exact isContainer

/-! ## Rules -/

/-- A visit of a rule changes nothing in it, and puts rules after it. -/
theorem visit_rule (place : Place) (source : Option String) (selector : String) (settled : Bool)
    (children : List Node) :
    ∃ selector' settled' variants,
      (toggle.visit place (.block source (.rule selector) settled children)).value =
          { node := .block source (.rule selector') settled' children, after := variants } ∧
        ∀ node ∈ variants, node.isRule := by
  simp only [visit, visitRule]
  split
  · exact ⟨selector, settled, [], rfl, by simp⟩
  · split
    · exact ⟨selector, true, [], rfl, by simp⟩
    · exact ⟨_, true, _, rfl, toggle.isRule_of_mem_variants place.around source selector children⟩

theorem isRule_walkInto (place : Place) {node : Node} (isRule : node.isRule) :
    (toggle.walkInto place node).isRule := by
  rcases node with _ | ⟨source, _ | selector | ⟨name, params, hasBlock⟩, settled, children⟩
  · cases isRule
  · cases isRule
  · rw [walkInto_block]
    rfl
  · cases isRule

/-- The share of a rule are rules, of which the first has in it what the walk leaves
of its children. -/
theorem walkShare_rule (place : Place) (source : Option String) (selector : String)
    (settled : Bool) (children : List Node) :
    ∃ selector' variants,
      toggle.walkShare place (.block source (.rule selector) settled children) =
          .block source (.rule selector') false
              (children.flatMap (toggle.walkShare (place.within source (.rule selector')))) ::
            variants ∧
        ∀ node ∈ variants, node.isRule := by
  obtain ⟨selector', settled', variants, visited, areRules⟩ :=
    toggle.visit_rule place source selector settled children
  refine ⟨selector', variants.map (toggle.walkInto place), ?_, ?_⟩
  · rw [walkShare_eq_cons, visited, walkInto_block]
  · intro node member
    rcases List.mem_map.mp member with ⟨variant, isVariant, rfl⟩
    exact toggle.isRule_walkInto place (areRules variant isVariant)

theorem isRule_of_mem_flatMap_walkShare (place : Place) {nodes : List Node}
    (areRules : ∀ node ∈ nodes, node.isRule) :
    ∀ node ∈ nodes.flatMap (toggle.walkShare place), node.isRule := by
  intro node member
  rcases List.mem_flatMap.mp member with ⟨rule, isMember, inShare⟩
  have isRule := areRules rule isMember
  rcases rule with _ | ⟨source, _ | selector | ⟨name, params, hasBlock⟩, settled, children⟩
  · cases isRule
  · cases isRule
  · obtain ⟨selector', variants, isShare, variantsAreRules⟩ :=
      toggle.walkShare_rule place source selector settled children
    rw [isShare] at inShare
    rcases List.mem_cons.mp inShare with rfl | isVariant
    · rfl
    · exact variantsAreRules node isVariant
  · cases isRule

/-! ## Treated nodes -/

/-- Treating a rule changes nothing in it, and puts rules after it. -/
theorem treat_rule (conditions : List String) (around source : Option String) (selector : String)
    (children : List Node) :
    ∃ selector' settled variants,
      (toggle.treat conditions around (.block source (.rule selector) false children)).nodes =
          .block source (.rule selector') settled children :: variants ∧
        ∀ node ∈ variants, node.isRule := by
  rw [treat]
  split
  · exact ⟨_, true, _, rfl, toggle.isRule_of_mem_variants around source selector children⟩
  · exact ⟨_, true, [], rfl, by simp⟩

/-- Treating an at-rule changes only what is in it. -/
theorem treat_atRule (conditions : List String) (around source : Option String)
    (name params : String) (hasBlock : Bool) (children : List Node) :
    ∃ children',
      (toggle.treat conditions around
          (.block source (.atRule name params hasBlock) false children)).nodes =
        [.block source (.atRule name params hasBlock) false children'] := by
  rw [treat]
  split
  · exact ⟨_, rfl⟩
  · exact ⟨_, rfl⟩

end Toggle

/-- Nodes are spared wherever they stand. -/
abbrev SparedAlone (toggle : Toggle) (nodes : List Node) : Prop :=
  ∀ place, Spares toggle false nodes (nodes.flatMap (toggle.walkShare place))

/-- Nodes are spared when they are treated by the media block they stand in. -/
abbrev SparedInMedia (toggle : Toggle) (nodes : List Node) : Prop :=
  ∀ place conditions around, place.insideQuery = true →
    Spares toggle true nodes
      ((toggle.treatNodes conditions around nodes).nodes.flatMap (toggle.walkShare place))

namespace Spares

variable {toggle : Toggle} {inMedia : Bool} {source : Option String} {params : String}
  {hasBlock : Bool} {children : List Node}

/-- A rule is spared, whatever its selector list has become, with rules after it. -/
theorem of_rule {selector selector' : String} {settled : Bool} {variants : List Node}
    (place : Place) (ofChildren : SparedAlone toggle children)
    (areRules : ∀ node ∈ variants, node.isRule) :
    Spares toggle inMedia [.block source (.rule selector) false children]
      ((.block source (.rule selector') settled children :: variants).flatMap
        (toggle.walkShare place)) := by
  obtain ⟨finalSelector, ownVariants, isShare, ownAreRules⟩ :=
    toggle.walkShare_rule place source selector' settled children
  have laterAreRules := toggle.isRule_of_mem_flatMap_walkShare place areRules
  rw [List.flatMap_cons, isShare, List.cons_append,
    ← List.append_nil (ownVariants ++ variants.flatMap (toggle.walkShare place))]
  exact rule (ofChildren _) (List.forall_mem_append.mpr ⟨ownAreRules, laterAreRules⟩) nil

/-- A block that is neither a rule nor a media block is spared if it is gone
into. -/
theorem of_other {head : Head} (place : Place) (noRule : ∀ selector, head ≠ .rule selector)
    (noMedia : head.isMedia = false) (ofChildren : SparedAlone toggle children) :
    Spares toggle false [.block source head false children]
      (toggle.walkShare place (.block source head false children)) := by
  rw [toggle.walkShare_other place source head false children (isRule_block_eq_false noRule)
    noMedia]
  exact other noRule noMedia (by simp) (ofChildren _) nil

/-- A media block that never holds on a screen is spared with all media blocks in it
marked. -/
theorem of_never (place : Place) (unmarked : Unmarked children)
    (isNever : (Media.conditions toggle.hook params).value = none) :
    Spares toggle inMedia [.block source (.atRule "media" params hasBlock) false children]
      [toggle.walkInto place
        (.block source (.atRule "media" params hasBlock) true (settleMediaIn children))] := by
  have insideQuery : (place.within source (.atRule "media" params hasBlock)).insideQuery = true := by
    simp [Place.within, Head.isQuery]
  rw [Toggle.walkInto_block,
    toggle.flatMap_walkShare_of_mediaSettled insideQuery (mediaSettled_settleMediaIn children),
    clearMarksIn_settleMediaIn, clearMarksIn_of_unmarked unmarked]
  exact never isNever nil

/-- A media block that the walk comes upon is spared. -/
theorem of_media (place : Place) (unmarked : Unmarked children)
    (ofChildren : SparedAlone toggle children) (ofTreated : SparedInMedia toggle children) :
    Spares toggle false [.block source (.atRule "media" params hasBlock) false children]
      (toggle.walkShare place (.block source (.atRule "media" params hasBlock) false children)) := by
  have insideQuery : (place.within source (.atRule "media" params hasBlock)).insideQuery = true := by
    simp [Place.within, Head.isQuery]
  rw [Toggle.walkShare_eq_cons]
  cases noViewport : (selectorsIn children).any fun selector =>
      Text.contains selector toggle.viewportGuard with
  | true =>
      have notFree : ¬ ViewportFree toggle children := by
        rw [viewportFree_iff, noViewport]
        exact Bool.noConfusion
      rw [Toggle.visit, Toggle.visitMedia, if_pos noViewport, Traced.value_pure,
        Toggle.walkInto_block]
      exact media (fun _ => notFree) (ofChildren _).inside (List.forall_mem_nil _) nil
  | false =>
      cases holds : (Media.conditions toggle.hook params).value with
      | none =>
          rw [Toggle.value_visit_media_of_none place source hasBlock noViewport holds]
          exact of_never place unmarked holds
      | some own =>
          have areContainers :=
            toggle.isContainerBlock_of_mem_after own source place.around children
          rw [Toggle.value_visit_media_of_some place source hasBlock noViewport holds,
            Toggle.walkInto_block, ← List.append_nil (List.map _ _)]
          refine media (by simp [holds]) (ofTreated _ own source insideQuery) ?_ nil
          intro container member
          rcases List.mem_map.mp member with ⟨made, isMade, rfl⟩
          exact toggle.isContainerBlock_walkInto place (areContainers made isMade)

/-- A block that the walk comes upon is spared. -/
theorem of_block {head : Head} (unmarked : Unmarked children)
    (ofChildren : SparedAlone toggle children) (ofTreated : SparedInMedia toggle children) :
    SparedAlone toggle [.block source head false children] := by
  intro place
  cases head with
  | sheet =>
      rw [List.flatMap_singleton]
      exact of_other place (by simp) rfl ofChildren
  | rule selector => exact of_rule place ofChildren (List.forall_mem_nil _)
  | atRule name params hasBlock =>
      rw [List.flatMap_singleton]
      cases isMedia : (Head.atRule name params hasBlock).isMedia with
      | false => exact of_other place (by simp) isMedia ofChildren
      | true =>
          obtain rfl : name = "media" := by simpa [Head.isMedia] using isMedia
          exact of_media place unmarked ofChildren ofTreated

/-- A node of a media block that is no media block is spared when the media block is
treated. -/
theorem of_treated {node : Node} (place : Place) (conditions : List String)
    (around : Option String) (isOther : node.isMedia = false) (unmarked : Unmarked [node])
    (alone : SparedAlone toggle [node]) (ofChildren : SparedAlone toggle node.children) :
    Spares toggle true [node]
      ((toggle.treatNode conditions around node).nodes.flatMap (toggle.walkShare place)) := by
  rw [toggle.treatNode_other _ _ isOther]
  cases isTreated : node.isTreated with
  | false => exact (alone place).inside
  | true =>
      rw [if_pos rfl]
      rcases node with _ | ⟨source, _ | selector | ⟨name, params, hasBlock⟩, settled, children⟩
      · cases isTreated
      · cases isTreated
      · obtain ⟨rfl, -, -⟩ := unmarked_block.mp unmarked
        obtain ⟨selector', settled, variants, isTreatment, areRules⟩ :=
          toggle.treat_rule conditions around source selector children
        rw [isTreatment]
        exact of_rule place ofChildren areRules
      · obtain ⟨rfl, -, -⟩ := unmarked_block.mp unmarked
        obtain ⟨children', isTreatment⟩ :=
          toggle.treat_atRule conditions around source name params hasBlock children
        rw [isTreatment, List.flatMap_singleton,
          toggle.walkShare_other place source _ false children' rfl isOther]
        exact treated isTreated nil

/-- What a media block makes of a media block directly in it is spared. -/
theorem of_nested (place : Place) (conditions : List String) (around : Option String)
    (insideQuery : place.insideQuery = true) (unmarked : Unmarked children)
    (ofTreated : SparedInMedia toggle children) :
    Spares toggle true [.block source (.atRule "media" params hasBlock) false children]
      ((toggle.treatNode conditions around
          (.block source (.atRule "media" params hasBlock) false children)).nodes.flatMap
        (toggle.walkShare place)) := by
  have visited : ∀ nodes, toggle.walkShare place
      (.block source (.atRule "media" params hasBlock) true nodes) =
        [toggle.walkInto place (.block source (.atRule "media" params hasBlock) true nodes)] :=
    fun nodes => toggle.walkShare_eq_cons place _
  cases holds : (Media.conditions toggle.hook params).value with
  | none =>
      rw [toggle.treatNode_media_of_none _ _ _ _ _ _ holds, List.flatMap_singleton, visited]
      exact of_never place unmarked holds
  | some own =>
      have within : (place.within source (.atRule "media" params hasBlock)).insideQuery = true := by
        simp [Place.within, insideQuery]
      rw [toggle.treatNode_media_of_some _ _ _ _ _ _ holds, Toggle.Treatment.ofBlock,
        List.flatMap_singleton, visited, Toggle.walkInto_block]
      exact media (by simp [holds]) (ofTreated _ _ source within) (List.forall_mem_nil _) nil

end Spares

/-- A pass spares nodes, both where it comes upon them and where a media block
treats them.  Each of the two for the nodes in a block gives the other for the
block. -/
theorem spares_walkShare (toggle : Toggle) {nodes : List Node} (unmarked : Unmarked nodes) :
    SparedAlone toggle nodes ∧ SparedInMedia toggle nodes := by
  induction nodes using forest_induction with
  | nil => exact ⟨fun _ => .nil, fun _ _ _ _ => .nil⟩
  | leaf source content rest ofRest =>
      rcases ofRest (unmarked_leaf.mp unmarked) with ⟨restAlone, restInMedia⟩
      constructor
      · intro place
        exact .leaf (restAlone place)
      · intro place conditions around insideQuery
        exact .leaf (restInMedia place conditions around insideQuery)
  | block source head settled children rest ofChildren ofRest =>
      rcases unmarked_block.mp unmarked with ⟨rfl, childrenUnmarked, restUnmarked⟩
      rcases ofChildren childrenUnmarked with ⟨childrenAlone, childrenInMedia⟩
      rcases ofRest restUnmarked with ⟨restAlone, restInMedia⟩
      have nodeUnmarked : Unmarked [.block source head false children] :=
        (forall_descendantsIn_cons.mp unmarked).1
      have nodeAlone : SparedAlone toggle [.block source head false children] :=
        Spares.of_block childrenUnmarked childrenAlone childrenInMedia
      constructor
      · intro place
        have both := (nodeAlone place).append (restAlone place)
        rwa [← List.flatMap_append, List.singleton_append] at both
      · intro place conditions around insideQuery
        rw [Toggle.treatNodes_cons, Toggle.Treatment.nodes_append, List.flatMap_append,
          ← List.singleton_append]
        refine .append ?_ (restInMedia place conditions around insideQuery)
        cases isMedia : (Node.block source head false children).isMedia with
        | false =>
            exact .of_treated place conditions around isMedia nodeUnmarked nodeAlone childrenAlone
        | true =>
            rcases head with _ | selector | ⟨name, params, hasBlock⟩
            · cases isMedia
            · cases isMedia
            · obtain rfl : name = "media" := by
                simpa [Node.isMedia, Node.head?, Head.isMedia] using isMedia
              exact .of_nested place conditions around insideQuery childrenUnmarked childrenInMedia

/-! ## The whole sheet -/

/-- Every media block for print that is in the nodes before is in the nodes after as
well, as it was. -/
def LeavesPrintOnly (before after : List Node) : Prop :=
  ∀ node ∈ descendantsIn before, node.isPrintOnly → node ∈ descendantsIn after

instance (before after : List Node) : Decidable (LeavesPrintOnly before after) :=
  inferInstanceAs (Decidable (∀ node ∈ descendantsIn before, node.isPrintOnly →
    node ∈ descendantsIn after))

/-- No media block lies below a block of another kind that itself lies below a media
block. -/
def NoneBuried (nodes : List Node) : Prop :=
  ∀ outer ∈ descendantsIn nodes, outer.isMedia → MediaOutermost outer.children

instance (nodes : List Node) : Decidable (NoneBuried nodes) :=
  inferInstanceAs (Decidable (∀ outer ∈ descendantsIn nodes, outer.isMedia →
    MediaOutermost outer.children))

theorem isPrintOnly_of_not_isMedia {node : Node} (noMedia : node.isMedia = false) :
    node.isPrintOnly = false := by
  unfold Node.isPrintOnly
  split
  · simp [Node.isMedia, Node.head?, Head.isMedia] at noMedia
  · rfl

theorem leavesPrintOnly_of_noMedia {before : List Node} (noMedia : NoMedia before)
    (after : List Node) : LeavesPrintOnly before after := by
  intro node member isPrintOnly
  rw [isPrintOnly_of_not_isMedia (noMedia node member)] at isPrintOnly
  cases isPrintOnly

/-- If a block that is not for print stays a block, the blocks for print in it and
behind it are left if they are left among the nodes there. -/
theorem leavesPrintOnly_block {source : Option String} {head head' : Head} {settled settled' : Bool}
    {children children' rest rest' : List Node} (added : List Node)
    (notHere : (Node.block source head settled children).isPrintOnly = false)
    (ofChildren : LeavesPrintOnly children children') (ofRest : LeavesPrintOnly rest rest') :
    LeavesPrintOnly (.block source head settled children :: rest)
      (.block source head' settled' children' :: (added ++ rest')) := by
  refine forall_descendantsIn_block.mpr ⟨by simp [notHere], ?_, ?_⟩
  · intro node member isPrintOnly
    simp [ofChildren node member isPrintOnly]
  · intro node member isPrintOnly
    simp [ofRest node member isPrintOnly]

/-- Nodes among which no media block is buried and no rule is scoped to the
viewport.  The flag tells whether they stand directly in a media block. -/
structure Exposed (toggle : Toggle) (inMedia : Bool) (nodes : List Node) : Prop where
  noneBuried : NoneBuried nodes
  viewportFree : ViewportFree toggle nodes
  outermost : inMedia → MediaOutermost nodes

namespace Exposed

variable {toggle : Toggle} {inMedia : Bool} {source : Option String} {head : Head}
  {settled : Bool} {node : Node} {inner rest : List Node}

theorem tail (exposed : Exposed toggle inMedia (node :: rest)) : Exposed toggle inMedia rest where
  noneBuried := (forall_descendantsIn_cons.mp exposed.noneBuried).2
  viewportFree := (eachSelector_cons.mp exposed.viewportFree).2
  outermost := fun isIn => (forall_descendantsIn_cons.mp (exposed.outermost isIn)).2

theorem children (exposed : Exposed toggle inMedia (.block source head settled inner :: rest)) :
    Exposed toggle head.isMedia inner where
  noneBuried := (forall_descendantsIn_block.mp exposed.noneBuried).2.1
  viewportFree := by
    have viewportFree := exposed.viewportFree
    cases head with
    | sheet => exact (eachSelector_sheet.mp viewportFree).1
    | rule selector => exact (eachSelector_rule.mp viewportFree).2.1
    | atRule name params hasBlock => exact (eachSelector_atRule.mp viewportFree).1
  outermost := (forall_descendantsIn_block.mp exposed.noneBuried).1

end Exposed

/-- In nodes that are spared all media blocks for print are left if none is buried
and no rule is scoped to the viewport. -/
theorem Spares.leavesPrintOnly {toggle : Toggle} {inMedia : Bool} {before after : List Node}
    (spares : Spares toggle inMedia before after) (exposed : Exposed toggle inMedia before) :
    LeavesPrintOnly before after := by
  induction spares with
  | nil => exact leavesPrintOnly_of_noMedia noMedia_nil []
  | leaf _ ofRest =>
      refine forall_descendantsIn_leaf.mpr ⟨by simp, ?_⟩
      intro node member isPrintOnly
      exact List.mem_cons_of_mem _ (ofRest exposed.tail node member isPrintOnly)
  | rule _ _ _ ofChildren ofRest =>
      exact leavesPrintOnly_block _ rfl (ofChildren exposed.children) (ofRest exposed.tail)
  | never _ _ ofRest =>
      intro node member isPrintOnly
      rw [descendantsIn_block, ← List.cons_append, List.mem_append] at member ⊢
      exact member.imp_right fun later => ofRest exposed.tail node later isPrintOnly
  | @media _ source params hasBlock children _ _ _ _ ofNever _ _ _ ofChildren ofRest =>
      have notPrint : (Node.block source (.atRule "media" params hasBlock) false
          children).isPrintOnly = false := by
        rw [Node.isPrintOnly, ← Bool.not_eq_true]
        intro isPrintOnly
        exact ofNever (Media.value_conditions_of_isPrintOnly toggle.hook isPrintOnly)
          exposed.children.viewportFree
      exact leavesPrintOnly_block _ notPrint (ofChildren exposed.children) (ofRest exposed.tail)
  | @other _ source head children _ before after _ noMedia _ _ _ ofChildren ofRest =>
      have exposedChildren := exposed.children
      rw [noMedia] at exposedChildren
      exact leavesPrintOnly_block [] (isPrintOnly_of_not_isMedia noMedia)
        (ofChildren exposedChildren) (ofRest exposed.tail)
  | @treated source name params hasBlock children children' before after isTreated _ ofRest =>
      have noMedia : (Head.atRule name params hasBlock).isMedia = false := by
        simp only [Node.isTreated, Bool.and_eq_true, Bool.not_eq_true'] at isTreated
        exact isTreated.1.1
      have noneBelow : NoMedia children :=
        (forall_descendantsIn_block.mp (exposed.outermost rfl)).1 rfl noMedia
      exact leavesPrintOnly_block [] (isPrintOnly_of_not_isMedia noMedia)
        (leavesPrintOnly_of_noMedia noneBelow children') (ofRest exposed.tail)

/-- A run leaves media blocks that never hold on a screen as they are, apart from
those that are buried and those with a rule in them that is scoped to the viewport.
In a sheet without either it leaves all media blocks for print. -/
theorem runToggle_spares (options : Options) (source : Option String) (settled : Bool)
    (children : List Node) :
    ∃ nodes,
      (runToggle options (.block source .sheet settled children)).value =
          .block source .sheet false
            ((Toggle.ofOptions options).addedContext source children ++ nodes) ∧
        Spares (Toggle.ofOptions options) false (clearMarksIn children) nodes ∧
        (NoneBuried children → ViewportFree (Toggle.ofOptions options) children →
          LeavesPrintOnly (clearMarksIn children) nodes) := by
  have spares := (spares_walkShare (Toggle.ofOptions options)
    (unmarked_clearMarksIn children)).1 (Place.outside.within source .sheet)
  refine ⟨_, value_runToggle_eq_flatMap options source .sheet settled children, spares, ?_⟩
  intro noneBuried viewportFree
  refine spares.leavesPrintOnly ⟨?_, ?_, by simp⟩
  · simp only [NoneBuried, MediaOutermost] at noneBuried ⊢
    simpa [descendantsIn_clearMarksIn] using noneBuried
  · simpa [EachSelector] using viewportFree

/-- Nodes of a sheet: blocks for print at the top, in a media block and in a block
of another kind, with media blocks in them. -/
def printedNodes : List Node :=
  [.block none (.atRule "media" "print" true) false
      [.block none (.rule ".a") false
          [.leaf none (.declaration { property := "width", value := "50vw" })],
        .block none (.atRule "media" "(min-width: 600px)" true) false
          [.block none (.rule ".b") false
            [.leaf none (.declaration { property := "width", value := "5vw" })]]],
    .block none (.atRule "media" "screen" true) false
      [.block none (.rule ".c") false
          [.leaf none (.declaration { property := "width", value := "50vw" })],
        .block none (.atRule "media" "only print" true) false [.block none (.rule ".d") false []]],
    .block none (.atRule "supports" "(display: grid)" true) false
      [.block none (.atRule "media" "print and (min-width: 600px)" true) false
        [.block none (.rule ".e") false []]]]

theorem runToggle_spares_printedNodes :
    NoneBuried printedNodes ∧ ViewportFree (Toggle.ofOptions {}) printedNodes ∧
      ∃ nodes,
        (runToggle {} (.block none .sheet false printedNodes)).value =
            .block none .sheet false
              ((Toggle.ofOptions {}).addedContext none printedNodes ++ nodes) ∧
          LeavesPrintOnly (clearMarksIn printedNodes) nodes := by
  have noneBuried : NoneBuried printedNodes := by decide
  have viewportFree : ViewportFree (Toggle.ofOptions {}) printedNodes := by decide
  rcases runToggle_spares {} none false printedNodes with ⟨nodes, isRun, -, leaves⟩
  exact ⟨noneBuried, viewportFree, nodes, isRun, leaves noneBuried viewportFree⟩

/-- A block for print that is buried in a media block without conditions. -/
def buriedPrint : List Node :=
  [.block none (.atRule "media" "screen" true) false
    [.block none (.atRule "supports" "(display: grid)" true) false
      [.block none (.atRule "media" "print" true) false
        [.block none (.rule ".p") false
          [.leaf none (.declaration { property := "width", value := "1vw" })]]]]]

/-- A block for print with a guarded rule and with a media block in it. -/
def guardedPrint : List Node :=
  [.block none (.atRule "media" "print" true) false
    [.block none (.rule "body:not([data-breakpoint-preview-mode]) .x") false [],
      .block none (.atRule "media" "(min-width: 600px)" true) false
        [.block none (.rule ".p") false
          [.leaf none (.declaration { property := "width", value := "1vw" })]]]]

/-- Blocks for print are not left in every sheet. -/
theorem not_leavesPrintOnly :
    ¬ LeavesPrintOnly buriedPrint (runToggle {} (.block none .sheet false buriedPrint)).value.children ∧
      ¬ LeavesPrintOnly guardedPrint
        (runToggle {} (.block none .sheet false guardedPrint)).value.children := by
  constructor
  · decide +kernel
  · decide +kernel

end ContainerPreview
