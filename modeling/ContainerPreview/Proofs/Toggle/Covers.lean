import ContainerPreview.Proofs.Toggle.Outside

/-!
# Relations that cover a pass

What a pass does to a sheet comes down to five steps: it marks a block, scopes the
selector list of a rule, forks a rule, and puts the container blocks of a media block
behind it; and it takes these steps anywhere in the sheet, one upon another.  A relation
that holds of each step and is kept where steps are put together holds between a sheet
and what a walk makes of it.

The relation may depend on the place.  No rule directly in keyframes is scoped or forked,
so there is nothing to show of these two steps there.
-/

namespace ContainerPreview

namespace Toggle

/-- The relation between the nodes of a block at a place holds of the steps of a pass, in
place and one upon another. -/
structure CoversAt (toggle : Toggle) (related : Place → List Node → List Node → Prop) :
    Prop where
  refl (place : Place) (nodes : List Node) : related place nodes nodes
  trans {place : Place} {before between after : List Node} (first : related place before between)
    (second : related place between after) : related place before after
  append {place : Place} {left left' right right' : List Node} (ofLeft : related place left left')
    (ofRight : related place right right') : related place (left ++ right) (left' ++ right')
  /-- A step below a rule. -/
  rule {place : Place} {source : Option String} {selector : String} {settled : Bool}
    {children children' : List Node}
    (ofChildren : related (place.within source (.rule selector)) children children') :
    related place [.block source (.rule selector) settled children]
      [.block source (.rule selector) settled children']
  /-- A step below another block, which may be marked or not afterwards. -/
  block {place : Place} {source : Option String} {head : Head} {settled settled' : Bool}
    {children children' : List Node} (noRule : ∀ selector, head ≠ .rule selector)
    (ofChildren : related (place.within source head) children children') :
    related place [.block source head settled children] [.block source head settled' children']
  /-- A rule is marked. -/
  settle (place : Place) (source : Option String) (selector : String) (settled : Bool)
    (children : List Node) :
    related place [.block source (.rule selector) settled children]
      [.block source (.rule selector) true children]
  /-- A rule is scoped to the viewport unless it is guarded. -/
  scope {place : Place} (free : place.inKeyframes = false) (source : Option String)
    (selector : String) (settled : Bool) (children : List Node) :
    related place [.block source (.rule selector) settled children]
      [.block source (.rule (toggle.scopeUnguarded selector)) true children]
  /-- A rule is forked. -/
  fork {place : Place} (free : place.inKeyframes = false) (source : Option String)
    (selector : String) (children : List Node) :
    related place [.block source (.rule selector) false children]
      (forkedRule (toggle.forkRule place.around source selector children).value source children)
  /-- A media block gets its container blocks. -/
  preview (place : Place) (conditions : List String) (source : Option String) (params : String)
    (hasBlock : Bool) (children : List Node) :
    related place [.block source (.atRule "media" params hasBlock) false children]
      (.block source (.atRule "media" params hasBlock) true children ::
        ((treatNodes toggle conditions source children).allContainers conditions).map
          (Node.inherit place.around))

namespace CoversAt

variable {toggle : Toggle} {related : Place → List Node → List Node → Prop}

/-- Two relations that cover a pass do so together. -/
theorem and {other : Place → List Node → List Node → Prop} (covers : toggle.CoversAt related)
    (covers' : toggle.CoversAt other) :
    toggle.CoversAt fun place before after =>
      related place before after ∧ other place before after where
  refl place nodes := ⟨covers.refl place nodes, covers'.refl place nodes⟩
  trans first second := ⟨covers.trans first.1 second.1, covers'.trans first.2 second.2⟩
  append ofLeft ofRight :=
    ⟨covers.append ofLeft.1 ofRight.1, covers'.append ofLeft.2 ofRight.2⟩
  rule ofChildren := ⟨covers.rule ofChildren.1, covers'.rule ofChildren.2⟩
  block noRule ofChildren := ⟨covers.block noRule ofChildren.1, covers'.block noRule ofChildren.2⟩
  settle place source selector settled children :=
    ⟨covers.settle place source selector settled children,
      covers'.settle place source selector settled children⟩
  scope free source selector settled children :=
    ⟨covers.scope free source selector settled children,
      covers'.scope free source selector settled children⟩
  fork free source selector children :=
    ⟨covers.fork free source selector children, covers'.fork free source selector children⟩
  preview place conditions source params hasBlock children :=
    ⟨covers.preview place conditions source params hasBlock children,
      covers'.preview place conditions source params hasBlock children⟩

theorem cons (covers : toggle.CoversAt related) {place : Place} {node node' : Node}
    {rest rest' : List Node} (ofNode : related place [node] [node'])
    (ofRest : related place rest rest') : related place (node :: rest) (node' :: rest') :=
  covers.append ofNode ofRest

theorem map (covers : toggle.CoversAt related) {place : Place} {change : Node → Node}
    (ofNode : ∀ node, related place [node] [change node]) (nodes : List Node) :
    related place nodes (nodes.map change) := by
  induction nodes with
  | nil => exact covers.refl place []
  | cons node rest inductionHypothesis => exact covers.cons (ofNode node) inductionHypothesis

/-- An at-rule with a step below it. -/
theorem atRule (covers : toggle.CoversAt related) {place : Place} {source : Option String}
    {name params : String} {hasBlock settled settled' : Bool} {children children' : List Node}
    (ofChildren : related (place.within source (.atRule name params hasBlock)) children
      children') :
    related place [.block source (.atRule name params hasBlock) settled children]
      [.block source (.atRule name params hasBlock) settled' children'] :=
  covers.block (by simp) ofChildren

/-! ## Treated nodes -/

theorem settleMediaIn (covers : toggle.CoversAt related) (place : Place) (nodes : List Node) :
    related place nodes (settleMediaIn nodes) := by
  induction nodes using forest_induction generalizing place with
  | nil => exact covers.refl place []
  | leaf source content rest ofRest => exact covers.cons (covers.refl place _) (ofRest place)
  | block source head settled children rest ofChildren ofRest =>
      refine covers.cons ?_ (ofRest place)
      cases head with
      | sheet => exact covers.block (by simp) (ofChildren _)
      | rule selector =>
          have noMedia : (Head.rule selector).isMedia = false := rfl
          rw [Node.settleMedia, noMedia, Bool.or_false]
          exact covers.rule (ofChildren _)
      | atRule name params hasBlock => exact covers.atRule (ofChildren _)

theorem scopeNodes (covers : toggle.CoversAt related) (place : Place) (nodes : List Node) :
    related place nodes (scopeNodes toggle place.inKeyframes nodes) := by
  induction nodes using forest_induction generalizing place with
  | nil => exact covers.refl place []
  | leaf source content rest ofRest => exact covers.cons (covers.refl place _) (ofRest place)
  | block source head settled children rest ofChildren ofRest =>
      refine covers.cons ?_ (ofRest place)
      cases head with
      | sheet => exact covers.block (by simp) (ofChildren (place.within source .sheet))
      | rule selector =>
          have below := ofChildren (place.within source (.rule selector))
          rw [scopeNode]
          split
          · exact covers.rule below
          · rename_i free
            exact covers.trans
              (covers.scope (Bool.eq_false_iff.mpr free) source selector settled children)
              (covers.rule (ofChildren (place.within source (.rule _))))
      | atRule name params hasBlock =>
          exact covers.atRule (ofChildren (place.within source (.atRule name params hasBlock)))

theorem scopeTreated (covers : toggle.CoversAt related) {place : Place}
    (free : place.inKeyframes = false) (node : Node) :
    related place [node] [toggle.scopeTreated node] := by
  have scopedAll := covers.scopeNodes place [node]
  rw [free] at scopedAll
  rcases node with _ | ⟨source, _ | selector | _, settled, children⟩
  · exact scopedAll
  · exact scopedAll
  · exact covers.scope free source selector settled children
  · exact scopedAll

/-- A forked rule with a step below it. -/
theorem forkedRule (covers : toggle.CoversAt related) {place : Place}
    (free : place.inKeyframes = false) (source : Option String) (selector : String)
    {children children' : List Node}
    (ofChildren : ∀ selector, related (place.within source (.rule selector)) children children') :
    related place [.block source (.rule selector) false children]
      (forkedRule (toggle.forkRule place.around source selector children).value source
        children') :=
  covers.trans (covers.fork free source selector children)
    (covers.cons (covers.rule (ofChildren _)) (covers.refl place _))

theorem forkNodes (covers : toggle.CoversAt related) (place : Place) (nodes : List Node) :
    related place nodes (forkNodes toggle place.inKeyframes place.around nodes).value := by
  induction nodes using forest_induction generalizing place with
  | nil => exact covers.refl place []
  | leaf source content rest ofRest => exact covers.cons (covers.refl place _) (ofRest place)
  | block source head settled children rest ofChildren ofRest =>
      simp only [Toggle.forkNodes, Traced.value_bind, Traced.value_pure]
      rw [← List.singleton_append]
      refine covers.append ?_ (ofRest place)
      cases head with
      | sheet => exact covers.block (by simp) (ofChildren (place.within source .sheet))
      | rule selector =>
          rw [forkNode]
          split
          · exact covers.rule (ofChildren (place.within source (.rule selector)))
          · rename_i unmarked
            rw [Bool.or_eq_true, not_or] at unmarked
            obtain ⟨free, notSettled⟩ := unmarked
            obtain rfl : settled = false := Bool.eq_false_iff.mpr notSettled
            exact covers.forkedRule (Bool.eq_false_iff.mpr free) source selector fun selector =>
              ofChildren (place.within source (.rule selector))
      | atRule name params hasBlock =>
          exact covers.atRule (ofChildren (place.within source (.atRule name params hasBlock)))

theorem forkTreated (covers : toggle.CoversAt related) {place : Place}
    (free : place.inKeyframes = false) (node : Node) :
    related place [node] (toggle.forkTreated place.around node).value := by
  have forkedAll := covers.forkNodes place [node]
  simp only [free, Toggle.forkNodes, Traced.value_bind, Traced.value_pure,
    List.append_nil] at forkedAll
  rcases node with _ | ⟨source, _ | selector | _, settled, children⟩
  · exact forkedAll
  · exact forkedAll
  · cases settled with
    | true => exact covers.refl place _
    | false => exact covers.fork free source selector children
  · exact forkedAll

/-- The nodes of a media block, treated. -/
theorem treatNodes (covers : toggle.CoversAt related) (conditions : List String) {place : Place}
    (free : place.inKeyframes = false) (nodes : List Node) :
    related place nodes (treatNodes toggle conditions place.around nodes).nodes := by
  induction nodes using nest_induction generalizing conditions place with
  | nil => exact covers.refl place []
  | media source params hasBlock settled children rest ofChildren ofRest =>
      rw [treatNodes_cons, Treatment.nodes_append]
      cases holds : (Media.conditions toggle.hook params).value with
      | none =>
          rw [treatNode_media_of_none _ _ _ _ _ _ _ holds]
          exact covers.cons (covers.atRule (covers.settleMediaIn _ children))
            (ofRest conditions free)
      | some own =>
          have isFree : (place.within source (.atRule "media" params hasBlock)).inKeyframes =
              false := Head.isKeyframes_media params hasBlock
          rw [treatNode_media_of_some _ _ _ _ _ _ _ holds]
          exact covers.cons (covers.atRule (ofChildren _ isFree)) (ofRest conditions free)
  | other node rest isOther ofRest =>
      rw [treatNodes_cons, Treatment.nodes_append, treatNode_other _ _ _ isOther]
      rw [← List.singleton_append]
      refine covers.append ?_ (ofRest conditions free)
      split
      · rw [treat]
        split
        · exact covers.forkTreated free node
        · exact covers.scopeTreated free node
      · exact covers.refl place [node]

/-! ## Visits and walks -/

theorem visitRule (covers : toggle.CoversAt related) (place : Place) (source : Option String)
    (selector : String) (settled : Bool) (children : List Node) :
    related place [.block source (.rule selector) settled children]
      ((toggle.visitRule place source selector settled children).value.node ::
        (toggle.visitRule place source selector settled children).value.after) := by
  unfold Toggle.visitRule
  split
  · exact covers.refl place _
  · rename_i notDone
    simp only [Bool.or_eq_true, not_or, Bool.not_eq_true] at notDone
    obtain ⟨⟨rfl, -⟩, free⟩ := notDone
    split
    · exact covers.settle place source selector false children
    · exact covers.fork free source selector children

theorem visitMedia (covers : toggle.CoversAt related) (place : Place) (source : Option String)
    (params : String) (hasBlock : Bool) (children : List Node) :
    related place [.block source (.atRule "media" params hasBlock) false children]
      ((toggle.visitMedia place.around source params hasBlock children).value.node ::
        (toggle.visitMedia place.around source params hasBlock children).value.after) := by
  unfold Toggle.visitMedia
  dsimp only
  split
  · exact covers.atRule (covers.refl _ children)
  · rw [Traced.value_bind]
    split
    · exact covers.atRule (covers.settleMediaIn _ children)
    · rename_i conditions _
      have isFree : (place.within source (.atRule "media" params hasBlock)).inKeyframes = false :=
        Head.isKeyframes_media params hasBlock
      exact covers.trans (covers.preview place conditions source params hasBlock children)
        (covers.cons (covers.atRule (covers.treatNodes conditions isFree children))
          (covers.refl place _))

/-- A visit of a node is covered. -/
theorem visit (covers : toggle.CoversAt related) (place : Place) (node : Node) :
    related place [node]
      ((toggle.visit place node).value.node :: (toggle.visit place node).value.after) := by
  unfold Toggle.visit
  split
  · exact covers.visitRule place _ _ _ _
  · exact covers.visitMedia place _ _ _ _
  · exact covers.refl place _

/-- If going below a node is covered, so is a walk over the nodes of a block. -/
theorem walkNodes (covers : toggle.CoversAt related) {below : Place → Node → Traced Node}
    (ofBelow : ∀ place node, related place [node] [(below place node).value]) (place : Place)
    (nodes : List Node) : related place nodes (toggle.walkNodes below place nodes).value := by
  induction nodes with
  | nil => exact covers.refl place []
  | cons node rest inductionHypothesis =>
      have visited := covers.visit place node
      have walked := covers.map (ofBelow place)
        ((toggle.visit place node).value.node :: (toggle.visit place node).value.after)
      rw [value_walkNodes_cons, value_visitBelow, ← List.singleton_append]
      exact covers.append (covers.trans visited walked) inductionHypothesis

/-- A walk below a node is covered, to however many levels it goes. -/
theorem walkBelow (covers : toggle.CoversAt related) (levels : Nat) (place : Place)
    (node : Node) : related place [node] [(toggle.walkBelow levels place node).value] := by
  induction levels generalizing place node with
  | zero => exact covers.refl place [node]
  | succ levels inductionHypothesis =>
      cases node with
      | leaf source content => exact covers.refl place _
      | block source head settled children =>
          have walked := covers.walkNodes inductionHypothesis (place.within source head) children
          cases head with
          | sheet => exact covers.block (by simp) walked
          | rule selector => exact covers.rule walked
          | atRule name params hasBlock => exact covers.atRule walked

/-- The context rule apart, a relation that covers a pass holds between the nodes of a sheet
without marks and what a run makes of them before it takes the marks away. -/
theorem exists_run {options : Options} (covers : (Toggle.ofOptions options).CoversAt related)
    (source : Option String) (head : Head) (settled : Bool) (children : List Node) :
    ∃ nodes,
      (runToggle options (.block source head settled children)).value =
          .block source head false
            ((Toggle.ofOptions options).addedContext source children ++ clearMarksIn nodes) ∧
        related (Place.outside.within source head) (clearMarksIn children) nodes := by
  have walked := fun levels => covers.walkNodes (covers.walkBelow levels)
    (Place.outside.within source head) (clearMarksIn children)
  refine ⟨_, ?_, walked (heightIn ((Toggle.ofOptions options).preparedNodes source children))⟩
  rw [value_runToggle, Toggle.walkAll]
  generalize heightIn ((Toggle.ofOptions options).preparedNodes source children) = levels
  rw [Toggle.preparedNodes, Toggle.value_walkNodes_append, clearMarksIn_append,
    Toggle.walkNodes_neededContext, Toggle.clearMarksIn_neededContext]

end CoversAt

/-- The relation holds of the steps of a pass, in place and one upon another, wherever they
are taken. -/
structure Covers (toggle : Toggle) (related : List Node → List Node → Prop) : Prop where
  refl (nodes : List Node) : related nodes nodes
  trans {before between after : List Node} (first : related before between)
    (second : related between after) : related before after
  append {left left' right right' : List Node} (ofLeft : related left left')
    (ofRight : related right right') : related (left ++ right) (left' ++ right')
  /-- A step below a rule. -/
  rule {source : Option String} {selector : String} {settled : Bool}
    {children children' : List Node} (ofChildren : related children children') :
    related [.block source (.rule selector) settled children]
      [.block source (.rule selector) settled children']
  /-- A step below another block, which may be marked or not afterwards. -/
  block {source : Option String} {head : Head} {settled settled' : Bool}
    {children children' : List Node} (noRule : ∀ selector, head ≠ .rule selector)
    (ofChildren : related children children') :
    related [.block source head settled children] [.block source head settled' children']
  /-- A rule is marked. -/
  settle (source : Option String) (selector : String) (settled : Bool) (children : List Node) :
    related [.block source (.rule selector) settled children]
      [.block source (.rule selector) true children]
  /-- A rule is scoped to the viewport unless it is guarded. -/
  scope (source : Option String) (selector : String) (settled : Bool) (children : List Node) :
    related [.block source (.rule selector) settled children]
      [.block source (.rule (toggle.scopeUnguarded selector)) true children]
  /-- A rule is forked. -/
  fork (around source : Option String) (selector : String) (children : List Node) :
    related [.block source (.rule selector) false children]
      (forkedRule (toggle.forkRule around source selector children).value source children)
  /-- A media block gets its container blocks. -/
  preview (conditions : List String) (around source : Option String) (params : String)
    (hasBlock : Bool) (children : List Node) :
    related [.block source (.atRule "media" params hasBlock) false children]
      (.block source (.atRule "media" params hasBlock) true children ::
        ((treatNodes toggle conditions source children).allContainers conditions).map
          (Node.inherit around))

namespace Covers

variable {toggle : Toggle} {related : List Node → List Node → Prop}

/-- A relation that covers a pass wherever its steps are taken does so at every place. -/
theorem atEveryPlace (covers : toggle.Covers related) : toggle.CoversAt fun _ => related where
  refl _ := covers.refl
  trans := covers.trans
  append := covers.append
  rule := covers.rule
  block := covers.block
  settle _ := covers.settle
  scope _ := covers.scope
  fork _ := covers.fork _
  preview place conditions := covers.preview conditions place.around

/-- If going below a node is covered, so is a walk over the nodes of a block. -/
theorem walkNodes (covers : toggle.Covers related) {below : Place → Node → Traced Node}
    (ofBelow : ∀ place node, related [node] [(below place node).value]) (place : Place)
    (nodes : List Node) : related nodes (toggle.walkNodes below place nodes).value :=
  covers.atEveryPlace.walkNodes ofBelow place nodes

/-- A walk below a node is covered, to however many levels it goes. -/
theorem walkBelow (covers : toggle.Covers related) (levels : Nat) (place : Place) (node : Node) :
    related [node] [(toggle.walkBelow levels place node).value] :=
  covers.atEveryPlace.walkBelow levels place node

/-- The context rule apart, a relation that covers a pass holds between the nodes of a sheet
without marks and what a run makes of them before it takes the marks away. -/
theorem exists_run {options : Options} (covers : (Toggle.ofOptions options).Covers related)
    (source : Option String) (head : Head) (settled : Bool) (children : List Node) :
    ∃ nodes,
      (runToggle options (.block source head settled children)).value =
          .block source head false
            ((Toggle.ofOptions options).addedContext source children ++ clearMarksIn nodes) ∧
        related (clearMarksIn children) nodes :=
  covers.atEveryPlace.exists_run source head settled children

end Covers

end Toggle

end ContainerPreview
