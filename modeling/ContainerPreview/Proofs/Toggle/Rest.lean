import ContainerPreview.Proofs.Report.Quiet
import ContainerPreview.Proofs.Toggle.MediaOutcome

/-!
# Sheets at rest

A sheet is at rest if a walk leaves it as it is and counts nothing.  Outside
media blocks every rule has to be guarded, or such that forking leaves it alone.
A media block with a rule scoped to the viewport in it is not treated again; any
other has to be such that treating leaves its nest alone.
-/

namespace ContainerPreview

/-- Conditions combined are none if there are none on either side. -/
theorem Media.isEmpty_combine (outer inner : List String) :
    (combine outer inner).isEmpty = (outer.isEmpty && inner.isEmpty) := by
  cases outer <;> cases inner <;> rfl

namespace Toggle

/-! ## Shapes at rest -/

/-- Forking leaves a rule with the given selector list and children alone. -/
structure Idle (toggle : Toggle) (selector : String) (children : List Node) : Prop where
  noVariant : needsVariant toggle.converter children = false
  sameSelector : toggle.keepInBothModes selector = selector

mutual
/-- Forking leaves all rules of a node alone that are not directly in
keyframes. -/
def idleNode (toggle : Toggle) (inKeyframes : Bool) : Node → Prop
  | .leaf _ _ => True
  | .block _ (.rule selector) _ children => inKeyframes = true ∨ Idle toggle selector children
  | .block _ head _ children => idleNodes toggle head.isKeyframes children
/-- Forking leaves all such rules of a list of nodes alone. -/
def idleNodes (toggle : Toggle) (inKeyframes : Bool) : List Node → Prop
  | [] => True
  | node :: nodes => idleNode toggle inKeyframes node ∧ idleNodes toggle inKeyframes nodes
end

mutual
/-- Treating leaves a node of a media block alone.  The flag tells whether the
block is under no condition. -/
def untouchedNode (toggle : Toggle) (always : Bool) : Node → Prop
  | .leaf _ _ => True
  | .block source head settled children =>
      match head with
      | .atRule "media" params _ =>
          match (Media.conditions toggle.hook params).value with
          | none => True
          | some own => untouchedNodes toggle (always && own.isEmpty) children
      | head =>
          let node := Node.block source head settled children
          Simple [node] ∧ (node.isTreated → always = true ∧ idleNode toggle false node)
/-- Treating leaves the nodes of a media block alone. -/
def untouchedNodes (toggle : Toggle) (always : Bool) : List Node → Prop
  | [] => True
  | node :: nodes => untouchedNode toggle always node ∧ untouchedNodes toggle always nodes
end

mutual
/-- A walk leaves a node alone. -/
def restingNode (toggle : Toggle) (place : Place) : Node → Prop
  | .leaf _ _ => True
  | .block source head _ children =>
      match head with
      | .rule selector =>
          (∀ child ∈ children, child.isLeaf) ∧
            (place.insideQuery = true ∨ place.inKeyframes = true ∨
              toggle.isGuarded selector = true ∨ toggle.Idle selector children)
      | .atRule "media" params hasBlock =>
          if (selectorsIn children).any fun selector =>
              Text.contains selector toggle.viewportGuard then
            restingNodes toggle (place.within source (.atRule "media" params hasBlock)) children
          else
            match (Media.conditions toggle.hook params).value with
            | none => True
            | some own => untouchedNodes toggle own.isEmpty children
      | head => restingNodes toggle (place.within source head) children
/-- A walk leaves the nodes of a block alone. -/
def restingNodes (toggle : Toggle) (place : Place) : List Node → Prop
  | [] => True
  | node :: nodes => restingNode toggle place node ∧ restingNodes toggle place nodes
end

variable {toggle : Toggle}

/-! ## Idle rules -/

/-- Forking gives back an idle rule. -/
theorem forkedRules_of_idle {around source : Option String} {selector : String}
    {children : List Node} (idle : toggle.Idle selector children) :
    toggle.forkedRules around source selector children =
      [.block source (.rule selector) false children] := by
  have sameSelector := idle.sameSelector
  rw [keepInBothModes] at sameSelector
  rw [forkedRules, if_neg (by simp [idle.noVariant]), sameSelector]

theorem forkRule_of_idle {around source : Option String} {selector : String}
    {children : List Node} (idle : toggle.Idle selector children) :
    toggle.forkRule around source selector children = pure { selector, variants := [] } := by
  rw [forkRule, if_neg (by simp [idle.noVariant]), idle.sameSelector]

theorem replaceRulesIn_forkedRules_of_idle {inKeyframes : Bool} (around : Option String)
    {nodes : List Node} (unmarked : Unmarked nodes)
    (idle : toggle.idleNodes inKeyframes nodes) :
    replaceRulesIn toggle.forkedRules inKeyframes around nodes = nodes := by
  induction nodes using forest_induction generalizing inKeyframes around with
  | nil => rfl
  | leaf source content rest ofRest =>
      rw [replaceRulesIn_leaf, ofRest around (unmarked_leaf.mp unmarked) idle.2]
  | block source head settled children rest ofChildren ofRest =>
      rcases unmarked_block.mp unmarked with ⟨rfl, childrenUnmarked, restUnmarked⟩
      have ofRest := ofRest around restUnmarked idle.2
      cases head with
      | sheet =>
          have ofChildren := ofChildren source childrenUnmarked idle.1
          rw [replaceRulesIn_sheet, ofRest]
          exact congrArg (fun nodes => .block source .sheet false nodes :: rest) ofChildren
      | rule selector =>
          rw [replaceRulesIn_rule, ofRest]
          rcases idle.1 with isInKeyframes | isIdle
          · rw [if_pos isInKeyframes]
            rfl
          · rw [forkedRules_of_idle isIdle]
            split <;> rfl
      | atRule name params hasBlock =>
          rw [replaceRulesIn_atRule, ofRest, ofChildren source childrenUnmarked idle.1]

/-- Forking idle rules is not noticed. -/
theorem events_forkNodes_of_idle {inKeyframes : Bool} (around : Option String) {nodes : List Node}
    (flat : FlatRules nodes) (idle : toggle.idleNodes inKeyframes nodes) :
    (forkNodes toggle inKeyframes around nodes).events = [] := by
  induction nodes using forest_induction generalizing inKeyframes around with
  | nil => rfl
  | leaf source content rest ofRest =>
      simp [forkNodes, forkNode, ofRest around (flatRules_leaf.mp flat) idle.2]
  | block source head settled children rest ofChildren ofRest =>
      cases head with
      | sheet =>
          rcases flatRules_sheet.mp flat with ⟨childrenFlat, restFlat⟩
          simp [forkNodes, forkNode, ofChildren source childrenFlat idle.1,
            ofRest around restFlat idle.2]
      | rule selector =>
          rcases flatRules_rule.mp flat with ⟨leaves, -, restFlat⟩
          have ofRest := ofRest around restFlat idle.2
          have ofChildren : forkNodes toggle false source children = pure children :=
            forkNodes_of_leaves false source leaves
          rcases idle.1 with rfl | isIdle
          · simp [forkNodes, forkNode, ofChildren, ofRest]
          · cases inKeyframes <;> cases settled <;>
              simp [forkNodes, forkNode, forkRule_of_idle isIdle, ofChildren, ofRest]
      | atRule name params hasBlock =>
          rcases flatRules_atRule.mp flat with ⟨childrenFlat, restFlat⟩
          simp [forkNodes, forkNode, ofChildren source childrenFlat idle.1,
            ofRest around restFlat idle.2]

theorem events_forkTreated_of_idle (around : Option String) {node : Node} (flat : FlatRules [node])
    (idle : toggle.idleNode false node) : (toggle.forkTreated around node).events = [] := by
  have ofNode := events_forkNodes_of_idle around flat ⟨idle, trivial⟩
  simp only [forkNodes, Traced.events_bind, Traced.events_pure, List.append_nil] at ofNode
  rcases node with _ | ⟨source, _ | selector | _, settled, children⟩
  · exact ofNode
  · exact ofNode
  · have isIdle : toggle.Idle selector children := by
      rcases idle with inKeyframes | isIdle
      · cases inKeyframes
      · exact isIdle
    cases settled <;> simp [forkTreated, forkRule_of_idle isIdle]
  · exact ofNode

/-! ## Untouched nests -/

/-- The treatment keeps the nodes apart from their marks, makes nothing new and
counts nothing. -/
structure Treatment.Keeps (treatment : Treatment) (nodes : List Node) : Prop where
  nodes : clearMarksIn treatment.nodes = nodes
  settled : MediaSettled treatment.nodes
  readings : ∀ event ∈ treatment.readings, event.isQuiet
  copies : treatment.copies = []
  events : treatment.events = []
  containers : treatment.containers = []
  innerEvents : treatment.innerEvents = []

theorem Treatment.Keeps.append {left right : Treatment} {leftNodes rightNodes : List Node}
    (ofLeft : left.Keeps leftNodes) (ofRight : right.Keeps rightNodes) :
    (left.append right).Keeps (leftNodes ++ rightNodes) where
  nodes := by rw [nodes_append, clearMarksIn_append, ofLeft.nodes, ofRight.nodes]
  settled := mediaSettled_append.mpr ⟨ofLeft.settled, ofRight.settled⟩
  readings := List.forall_mem_append.mpr ⟨ofLeft.readings, ofRight.readings⟩
  copies := by rw [copies_append, ofLeft.copies, ofRight.copies, List.append_nil]
  events := by rw [events_append, ofLeft.events, ofRight.events, List.append_nil]
  containers := by rw [containers_append, ofLeft.containers, ofRight.containers, List.append_nil]
  innerEvents := by
    rw [innerEvents_append, ofLeft.innerEvents, ofRight.innerEvents, List.append_nil]

/-- Treatments that keep the nodes of a block put no container block after it. -/
theorem Treatment.Keeps.allContainers {treatment : Treatment} {nodes : List Node}
    (keeps : treatment.Keeps nodes) (conditions : List String) :
    treatment.allContainers conditions = [] := by
  rw [allContainers_eq, keeps.copies, keeps.containers]
  rfl

theorem keeps_keep {node : Node} (unmarked : Unmarked [node]) (noMedia : NoMedia [node]) :
    (Treatment.keep node).Keeps [node] where
  nodes := clearMarksIn_of_unmarked unmarked
  settled := noMedia.mediaSettled
  readings := by simp [Treatment.keep]
  copies := rfl
  events := rfl
  containers := rfl
  innerEvents := rfl

theorem keeps_treat_of_idle (around : Option String) {node : Node} (simple : Simple [node])
    (unmarked : Unmarked [node]) (idle : toggle.idleNode false node) :
    (toggle.treat [] around node).Keeps [node] := by
  have sameNodes : clearMarksIn (toggle.forkTreated around node).value = [node] := by
    rw [clearMarksIn_forkTreated around simple.flat unmarked, ← replaceRulesIn_singleton,
      replaceRulesIn_forkedRules_of_idle around unmarked ⟨idle, trivial⟩]
  have stillNoMedia : NoMedia (toggle.forkTreated around node).value := by
    rw [← noMedia_clearMarksIn, sameNodes]
    exact simple.noMedia
  exact
    { nodes := sameNodes
      settled := stillNoMedia.mediaSettled
      readings := by simp [treat]
      copies := rfl
      events := events_forkTreated_of_idle around simple.flat idle
      containers := rfl
      innerEvents := rfl }

theorem untouchedNode_media_of_some {always : Bool} {source : Option String} {params : String}
    {hasBlock settled : Bool} {children : List Node} {own : List String}
    (holds : (Media.conditions toggle.hook params).value = some own) :
    toggle.untouchedNode always (.block source (.atRule "media" params hasBlock) settled children) =
      toggle.untouchedNodes (always && own.isEmpty) children := by
  simp [untouchedNode, holds]

theorem untouchedNode_other {always : Bool} {source : Option String} {head : Head} {settled : Bool}
    {children : List Node} (noMedia : head.isMedia = false) :
    toggle.untouchedNode always (.block source head settled children) ↔
      Simple [.block source head settled children] ∧
        ((Node.block source head settled children).isTreated →
          always = true ∧ toggle.idleNode false (.block source head settled children)) := by
  unfold untouchedNode
  split
  · simp [Head.isMedia] at noMedia
  · rfl

theorem keeps_treatNodes_cons {conditions : List String} {around : Option String} {node : Node}
    {nodes : List Node} (ofNode : (treatNode toggle conditions around node).Keeps [node])
    (ofNodes : (treatNodes toggle conditions around nodes).Keeps nodes) :
    (treatNodes toggle conditions around (node :: nodes)).Keeps (node :: nodes) :=
  ofNode.append ofNodes

/-- Treating keeps an untouched nest. -/
theorem keeps_treatNodes {nodes : List Node} (unmarked : Unmarked nodes)
    (conditions : List String) (around : Option String)
    (untouched : toggle.untouchedNodes conditions.isEmpty nodes) :
    (treatNodes toggle conditions around nodes).Keeps nodes := by
  induction nodes using nest_induction generalizing conditions around with
  | nil => exact ⟨rfl, noMedia_nil.mediaSettled, by simp, rfl, rfl, rfl, rfl⟩
  | media source params hasBlock settled children rest ofChildren ofRest =>
      rcases unmarked_block.mp unmarked with ⟨rfl, childrenUnmarked, restUnmarked⟩
      rcases untouched with ⟨here, later⟩
      apply keeps_treatNodes_cons
      · have quiet := Media.quiet_conditions toggle.hook params
        cases holds : (Media.conditions toggle.hook params).value with
        | none =>
            rw [treatNode_media_of_none _ _ _ _ _ _ _ holds]
            refine ⟨?_, ?_, quiet, rfl, rfl, rfl, rfl⟩
            · simp [clearMarksIn, Node.clearMarks, clearMarksIn_of_unmarked childrenUnmarked]
            · exact mediaSettled_block.mpr ⟨fun _ => rfl, mediaSettled_settleMediaIn children,
                noMedia_nil.mediaSettled⟩
        | some own =>
            rw [untouchedNode_media_of_some holds, ← Media.isEmpty_combine] at here
            have inner := ofChildren childrenUnmarked (Media.combine conditions own) source here
            rw [treatNode_media_of_some _ _ _ _ _ _ _ holds, Treatment.ofBlock]
            refine ⟨?_, ?_, ?_, rfl, rfl, inner.allContainers _, ?_⟩
            · simp [clearMarksIn, Node.clearMarks, inner.nodes]
            · exact mediaSettled_block.mpr ⟨fun _ => rfl, inner.settled, noMedia_nil.mediaSettled⟩
            · exact List.forall_mem_append.mpr ⟨quiet, inner.readings⟩
            · simp [inner.events, inner.innerEvents]
      · exact ofRest restUnmarked conditions around later
  | other node rest isOther ofRest =>
      rcases forall_descendantsIn_cons.mp unmarked with ⟨nodeUnmarked, restUnmarked⟩
      rcases untouched with ⟨here, later⟩
      apply keeps_treatNodes_cons
      · rw [treatNode_other _ _ _ isOther]
        cases node with
        | leaf source content => exact keeps_keep nodeUnmarked (by simp)
        | block source head settled children =>
            rcases (untouchedNode_other isOther).mp here with ⟨simple, ofTreated⟩
            split
            · rename_i treated
              rcases ofTreated treated with ⟨always, idle⟩
              obtain rfl : conditions = [] := List.isEmpty_iff.mp always
              exact keeps_treat_of_idle around simple nodeUnmarked idle
            · exact keeps_keep nodeUnmarked simple.noMedia
      · exact ofRest restUnmarked conditions around later

/-! ## Walks at rest -/

/-- The computation gives back the nodes apart from their marks and counts
nothing. -/
structure Keeps (walked : Traced (List Node)) (nodes : List Node) : Prop where
  value : clearMarksIn walked.value = nodes
  quiet : walked.Quiet

theorem keeps_walkNodes_cons {below : Place → Node → Traced Node} {place : Place} {node : Node}
    {nodes : List Node} (ofNode : Keeps (toggle.visitBelow below place node) [node])
    (ofNodes : Keeps (toggle.walkNodes below place nodes) nodes) :
    Keeps (toggle.walkNodes below place (node :: nodes)) (node :: nodes) where
  value := by
    rw [value_walkNodes_cons, clearMarksIn_append, ofNode.value, ofNodes.value]
    rfl
  quiet := by
    rw [Traced.Quiet, events_walkNodes_cons]
    exact List.forall_mem_append.mpr ⟨ofNode.quiet, ofNodes.quiet⟩

/-- A node is kept if a quiet visit puts nothing after it and the walk below it
keeps it. -/
theorem keeps_visitBelow {below : Place → Node → Traced Node} {place : Place} {node visited : Node}
    (quiet : (toggle.visit place node).Quiet)
    (isVisited : (toggle.visit place node).value = { node := visited })
    (ofBelow : (below place visited).Quiet)
    (same : clearMarksIn [(below place visited).value] = [node]) :
    Keeps (toggle.visitBelow below place node) [node] where
  value := by
    rw [value_visitBelow, isVisited]
    exact same
  quiet := by
    apply Traced.quiet_bind quiet
    rw [isVisited]
    exact Traced.quiet_bind ofBelow (Traced.quiet_bind (by simp) (Traced.quiet_pure _))

/-- A visit at most marks a rule at rest. -/
theorem visit_rule_of_resting {place : Place} {source : Option String} {selector : String}
    {children : List Node}
    (rest : toggle.restingNode place (.block source (.rule selector) false children)) :
    ∃ settled, toggle.visit place (.block source (.rule selector) false children) =
      pure { node := .block source (.rule selector) settled children } := by
  by_cases inside : (place.insideQuery || place.inKeyframes) = true
  · exact ⟨false, by simp [visit, visitRule, inside]⟩
  · by_cases guarded : toggle.isGuarded selector = true
    · exact ⟨true, by simp [visit, visitRule, inside, guarded]⟩
    · have idle : toggle.Idle selector children := by
        rw [Bool.or_eq_true, not_or] at inside
        rcases rest.2 with insideQuery | inKeyframes | isGuarded | idle
        · exact absurd insideQuery inside.1
        · exact absurd inKeyframes inside.2
        · exact absurd isGuarded guarded
        · exact idle
      exact ⟨true, by simp [visit, visitRule, inside, guarded, forkRule_of_idle idle]⟩

theorem keeps_visitBelow_rule {levels : Nat} {place : Place} {source : Option String}
    {selector : String} {children : List Node} (unmarked : Unmarked children)
    (rest : toggle.restingNode place (.block source (.rule selector) false children)) :
    Keeps (toggle.visitBelow (toggle.walkBelow levels) place
      (.block source (.rule selector) false children))
      [.block source (.rule selector) false children] := by
  rcases visit_rule_of_resting rest with ⟨settled, visited⟩
  have walked := toggle.walkBelow_of_leaves levels place source (.rule selector) settled rest.1
  refine keeps_visitBelow (by simp [visited]) (by rw [visited, Traced.value_pure]) ?_ ?_
  · simp [walked]
  · simp [walked, clearMarksIn, Node.clearMarks, clearMarksIn_of_unmarked unmarked]

/-- A walk below a block keeps it if the walk over its children keeps them. -/
theorem keeps_walkBelow (levels : Nat) (place : Place) {source : Option String} {head : Head}
    (settled : Bool) {children : List Node} (unmarked : Unmarked children)
    (ofChildren : ∀ levels,
      Keeps (toggle.walkNodes (toggle.walkBelow levels) (place.within source head) children)
        children) :
    (toggle.walkBelow levels place (.block source head settled children)).Quiet ∧
      clearMarksIn [(toggle.walkBelow levels place (.block source head settled children)).value] =
        [.block source head false children] := by
  cases levels with
  | zero =>
      refine ⟨Traced.quiet_pure _, ?_⟩
      simp [walkBelow, clearMarksIn, Node.clearMarks, clearMarksIn_of_unmarked unmarked]
  | succ levels =>
      refine ⟨Traced.quiet_bind (ofChildren levels).quiet (Traced.quiet_pure _), ?_⟩
      simp [walkBelow, clearMarksIn, Node.clearMarks, (ofChildren levels).value]

theorem quiet_visitMedia {around source : Option String} {params : String} {hasBlock : Bool}
    {children : List Node}
    (ofSome : ∀ own, (Media.conditions toggle.hook params).value = some own →
      (treatNodes toggle own source children).Keeps children) :
    (toggle.visitMedia around source params hasBlock children).Quiet := by
  unfold visitMedia
  dsimp only
  split
  · exact Traced.quiet_pure _
  · apply Traced.quiet_bind (Media.quiet_conditions toggle.hook params)
    split
    · exact Traced.quiet_bind (Traced.quiet_emit rfl) (Traced.quiet_pure _)
    · rename_i own holds
      have keeps := ofSome own holds
      refine Traced.quiet_bind (Traced.quiet_emit rfl) (Traced.quiet_bind (Traced.quiet_emit rfl)
        (Traced.quiet_bind ?_ (Traced.quiet_pure _)))
      rw [keeps.events, keeps.innerEvents, List.append_nil, List.append_nil]
      exact keeps.readings

theorem keeps_visitBelow_media {levels : Nat} {place : Place} {source : Option String}
    {params : String} {hasBlock : Bool} {children : List Node} (unmarked : Unmarked children)
    (ofChildren : ∀ levels place, toggle.restingNodes place children →
      Keeps (toggle.walkNodes (toggle.walkBelow levels) place children) children)
    (rest : toggle.restingNode place
      (.block source (.atRule "media" params hasBlock) false children)) :
    Keeps (toggle.visitBelow (toggle.walkBelow levels) place
      (.block source (.atRule "media" params hasBlock) false children))
      [.block source (.atRule "media" params hasBlock) false children] := by
  simp only [restingNode] at rest
  split at rest
  · rename_i guarded
    have visited : toggle.visit place (.block source (.atRule "media" params hasBlock) false
        children) = pure { node := .block source (.atRule "media" params hasBlock) true children } := by
      rw [visit, visitMedia, if_pos guarded]
    obtain ⟨quiet, same⟩ := keeps_walkBelow levels place true unmarked fun levels =>
      ofChildren levels _ rest
    exact keeps_visitBelow (by simp [visited]) (by rw [visited, Traced.value_pure]) quiet same
  · rename_i unguarded
    rw [Bool.not_eq_true] at unguarded
    have isQuery : (Head.atRule "media" params hasBlock).isQuery = true := rfl
    have quiet : (toggle.visit place (.block source (.atRule "media" params hasBlock) false
        children)).Quiet := by
      refine quiet_visitMedia fun own holds => ?_
      rw [holds] at rest
      exact keeps_treatNodes unmarked own source rest
    cases holds : (Media.conditions toggle.hook params).value with
    | none =>
        have visited := value_visit_media_of_none place source hasBlock unguarded holds
        have walked := toggle.walkBelow_of_isQuery levels place source true isQuery
          (mediaSettled_settleMediaIn children)
        refine keeps_visitBelow quiet visited ?_ ?_
        · rw [walked]
          exact Traced.quiet_pure _
        · simp [walked, clearMarksIn, Node.clearMarks, clearMarksIn_of_unmarked unmarked]
    | some own =>
        rw [holds] at rest
        have keeps := keeps_treatNodes unmarked own source rest
        have visited := value_visit_media_of_some place source hasBlock unguarded holds
        have walked := toggle.walkBelow_of_isQuery levels place source true isQuery keeps.settled
        rw [keeps.allContainers, List.map_nil] at visited
        refine keeps_visitBelow quiet visited ?_ ?_
        · rw [walked]
          exact Traced.quiet_pure _
        · simp [walked, clearMarksIn, Node.clearMarks, keeps.nodes]

theorem restingNode_other {place : Place} {source : Option String} {head : Head} {settled : Bool}
    {children : List Node} (noRule : (Node.block source head settled children).isRule = false)
    (noMedia : head.isMedia = false) :
    toggle.restingNode place (.block source head settled children) ↔
      toggle.restingNodes (place.within source head) children := by
  unfold restingNode
  split
  · cases noRule
  · simp [Head.isMedia] at noMedia
  · rfl

theorem keeps_visitBelow_other (levels : Nat) (place : Place) {source : Option String}
    {head : Head} {children : List Node} (unmarked : Unmarked children)
    (noRule : (Node.block source head false children).isRule = false)
    (noMedia : head.isMedia = false)
    (ofChildren : ∀ levels place, toggle.restingNodes place children →
      Keeps (toggle.walkNodes (toggle.walkBelow levels) place children) children)
    (rest : toggle.restingNode place (.block source head false children)) :
    Keeps (toggle.visitBelow (toggle.walkBelow levels) place (.block source head false children))
      [.block source head false children] := by
  have childrenRest := (restingNode_other noRule noMedia).mp rest
  have visited := toggle.visit_other place noRule (by simpa [Node.isMedia, Node.head?])
  obtain ⟨quiet, same⟩ := keeps_walkBelow levels place false unmarked fun levels =>
    ofChildren levels _ childrenRest
  exact keeps_visitBelow (by simp [visited]) (by rw [visited, Traced.value_pure]) quiet same

/-- A walk leaves nodes at rest as they are and counts nothing. -/
theorem keeps_walkNodes (levels : Nat) (place : Place) {nodes : List Node}
    (unmarked : Unmarked nodes) (rest : toggle.restingNodes place nodes) :
    Keeps (toggle.walkNodes (toggle.walkBelow levels) place nodes) nodes := by
  induction nodes using forest_induction generalizing levels place with
  | nil => exact ⟨rfl, Traced.quiet_pure _⟩
  | leaf source content others ofRest =>
      have visited : toggle.visit place (.leaf source content) =
          pure { node := .leaf source content } := rfl
      refine keeps_walkNodes_cons (keeps_visitBelow (by simp [visited])
        (by rw [visited, Traced.value_pure]) ?_ ?_)
        (ofRest levels place (unmarked_leaf.mp unmarked) rest.2)
      · simp
      · simp [clearMarksIn, Node.clearMarks]
  | block source head settled children others ofChildren ofRest =>
      rcases unmarked_block.mp unmarked with ⟨rfl, childrenUnmarked, othersUnmarked⟩
      have keepsChildren := fun levels place => ofChildren levels place childrenUnmarked
      refine keeps_walkNodes_cons ?_ (ofRest levels place othersUnmarked rest.2)
      cases head with
      | sheet => exact keeps_visitBelow_other levels place childrenUnmarked rfl rfl keepsChildren rest.1
      | rule selector => exact keeps_visitBelow_rule childrenUnmarked rest.1
      | atRule name params hasBlock =>
          cases isMedia : (Head.atRule name params hasBlock).isMedia with
          | true =>
              obtain rfl : name = "media" := by simpa [Head.isMedia] using isMedia
              exact keeps_visitBelow_media childrenUnmarked keepsChildren rest.1
          | false =>
              exact keeps_visitBelow_other levels place childrenUnmarked rfl isMedia keepsChildren
                rest.1

end Toggle

/-- A run leaves a sheet at rest as it is and counts nothing, if it needs no
context rule. -/
theorem runToggle_of_resting (options : Options) {source : Option String} {nodes : List Node}
    (unmarked : Unmarked nodes)
    (rest : (Toggle.ofOptions options).restingNodes (Place.outside.within source .sheet) nodes)
    (noContext : (Toggle.ofOptions options).neededContext source nodes = []) :
    (runToggle options (.block source .sheet false nodes)).value = .block source .sheet false nodes ∧
      (runToggle options (.block source .sheet false nodes)).Quiet := by
  have prepared : (Toggle.ofOptions options).preparedNodes source nodes = nodes := by
    rw [Toggle.preparedNodes, clearMarksIn_of_unmarked unmarked, noContext, List.nil_append]
  have keeps : Toggle.Keeps ((Toggle.ofOptions options).walkAll
      (Place.outside.within source .sheet) nodes) nodes :=
    Toggle.keeps_walkNodes (heightIn nodes) _ unmarked rest
  constructor
  · rw [value_runToggle, prepared, keeps.value]
  · rw [Traced.Quiet, events_runToggle, prepared, Pass.events_addContext,
      clearMarksIn_of_unmarked unmarked, noContext, List.forall_mem_append,
      List.forall_mem_append]
    refine ⟨⟨List.forall_mem_nil _, keeps.quiet⟩, ?_⟩
    simp [Event.isQuiet]

end ContainerPreview
