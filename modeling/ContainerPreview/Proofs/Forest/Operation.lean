import ContainerPreview.Proofs.Forest.Cursor

/-!
# Operations beside a cursor

An operation on the children of containers is a row of steps: it takes nodes out of where
they are, one by one, and then puts them all in, or takes out a child.  The forest is noted
after every step, not only after the operation: a node that is moved is out of its
container for a moment, between being taken and being put in, which tells it from a node
that stays.

What the moments of a walk do to the two sides of a cursor is its course.  It determines
which of the nodes that stay are passed, and in which order.
-/

namespace ContainerPreview

namespace Forest

/-! ## Operations and their steps -/

/-- An operation of a visitor. -/
inductive Operation where
  | create (kind : Kind) (source : Option String)
  | append (container : NodeId) (nodes : List NodeId)
  | prepend (container : NodeId) (nodes : List NodeId)
  | insertBefore (container existing : NodeId) (nodes : List NodeId)
  | insertAfter (container existing : NodeId) (nodes : List NodeId)
  | removeChild (container child : NodeId)
  | remove (id : NodeId)
  | before (id : NodeId) (nodes : List NodeId)
  | after (id : NodeId) (nodes : List NodeId)
  | replaceWith (id : NodeId) (nodes : List NodeId)

/-- The forests that taking nodes for a container goes through. -/
def adoptions (container : NodeId) : List NodeId → Forest → List Forest
  | [], _ => []
  | id :: ids, forest =>
      match (adoptOne container id).apply forest with
      | (.ok (), adopted) => adopted :: adoptions container ids adopted
      | (.error _, adopted) => [adopted]

namespace Operation

/-- The nodes that an operation names. -/
def names : Operation → List NodeId
  | .create _ _ => []
  | .append container nodes | .prepend container nodes => container :: nodes
  | .insertBefore container existing nodes | .insertAfter container existing nodes =>
      container :: existing :: nodes
  | .removeChild container child => [container, child]
  | .remove id => [id]
  | .before id nodes | .after id nodes | .replaceWith id nodes => id :: nodes

/-- The edit that an operation is. -/
def edit : Operation → Edit Unit
  | .create kind source => discard (Forest.create kind source)
  | .append container nodes => Forest.append container nodes
  | .prepend container nodes => Forest.prepend container nodes
  | .insertBefore container existing nodes => Forest.insertBefore container existing nodes
  | .insertAfter container existing nodes => Forest.insertAfter container existing nodes
  | .removeChild container child => Forest.removeChild container child
  | .remove id => Forest.remove id
  | .before id nodes => Forest.before id nodes
  | .after id nodes => Forest.after id nodes
  | .replaceWith id nodes => Forest.replaceWith id nodes

/-- The forests that an operation goes through on its way. -/
def onTheWay (forest : Forest) : Operation → List Forest
  | .append container nodes | .prepend container nodes | .insertBefore container _ nodes
  | .insertAfter container _ nodes => adoptions container nodes forest
  | .before id nodes | .after id nodes =>
      match forest.parent? id with
      | some parent => adoptions parent nodes forest
      | none => []
  | .replaceWith id nodes =>
      match forest.parent? id with
      | some parent =>
          adoptions parent nodes forest ++ [((Forest.insertBefore parent id nodes).apply forest).2]
      | none => []
  | _ => []

/-- Only nodes in use can be named. -/
def isAllowed (forest : Forest) (operation : Operation) : Bool :=
  operation.names.all (· < forest.size)

/-- What an operation does. -/
def apply (operation : Operation) (forest : Forest) : Except EditError Unit × Forest :=
  if operation.isAllowed forest then operation.edit.apply forest
  else (.error .unsupported, forest)

/-- The forests after the steps of an operation, the last of which it ends with. -/
def trail (operation : Operation) (forest : Forest) : List Forest :=
  (if operation.isAllowed forest then operation.onTheWay forest else []) ++
    [(operation.apply forest).2]

end Operation

/-! ## Moments -/

/-- Something worth noting about a walk: a forest after a step of an operation, or a node
passed to the visitor. -/
inductive Moment where
  | changed (forest : Forest)
  | passed (node : NodeId)

/-- The nodes that were passed to the visitor. -/
def passes (log : List Moment) : List NodeId :=
  log.filterMap fun
    | .changed _ => none
    | .passed node => some node

/-- The node is a child of the container all the time. -/
def stays (log : List Moment) (container node : NodeId) : Bool :=
  log.all fun
    | .changed forest => (forest.children container).contains node
    | .passed _ => true

/-- The node is never a child of the container. -/
def isMissing (log : List Moment) (container node : NodeId) : Bool :=
  log.all fun
    | .changed forest => !(forest.children container).contains node
    | .passed _ => true

/-! ## Steps of operations -/

/-- An edit takes nodes for a container and then either fails or puts them in, moving the
cursors along. -/
def Inserts (edit : Edit Unit) (container : NodeId) (nodes : List NodeId) : Prop :=
  ∀ forest, let taken := (adopt container nodes).apply forest
    (edit.apply forest).2 = taken.2 ∨
      taken.1 = .ok () ∧ ∃ index move,
        (edit.apply forest).2 = taken.2.put container index nodes move ∧
          ∀ behind ≤ (taken.2.children container).length, Follows move index nodes.length behind

/-- An edit takes nodes for a container and puts them in at the place that it then looks up, and
fails if there is none. -/
def Places (edit : Edit Unit) (container : NodeId) (nodes : List NodeId)
    (place : Forest → Except EditError (Nat × (Int → Int))) : Prop :=
  ∀ forest, edit.apply forest =
    match (adopt container nodes).apply forest with
    | (.error error, taken) => (.error error, taken)
    | (.ok (), taken) =>
        match place taken with
        | .error error => (.error error, taken)
        | .ok (index, move) => (.ok (), taken.put container index nodes move)

theorem places_append (container : NodeId) (nodes : List NodeId) :
    Places (append container nodes) container nodes
      fun taken => .ok ((taken.children container).length, id) := by
  intro forest
  rw [append, Edit.apply_bind]
  rcases (adopt container nodes).apply forest with ⟨error | _, taken⟩
  · rfl
  · simp only [Edit.apply_change, Prod.mk.injEq, true_and, put]
    refine update_congr ?_
    simp [Cell.splice, Cell.moveCursors, children]

theorem places_prepend (container : NodeId) (nodes : List NodeId) :
    Places (prepend container nodes) container nodes fun _ => .ok (0, (· + nodes.length)) := by
  intro forest
  rw [prepend, Edit.apply_bind]
  rcases (adopt container nodes).apply forest with ⟨error | _, taken⟩ <;> rfl

theorem places_insertBefore (container existing : NodeId) (nodes : List NodeId) :
    Places (insertBefore container existing nodes) container nodes
      fun taken => (taken.indexOf container existing).map fun index => (index, fun cursor =>
        if (index : Int) ≤ cursor then cursor + nodes.length else cursor) := by
  intro forest
  rw [insertBefore, Edit.apply_bind]
  rcases (adopt container nodes).apply forest with ⟨error | _, taken⟩
  · rfl
  · simp only [Edit.apply_bind, Edit.apply_ask]
    cases taken.indexOf container existing <;> rfl

theorem places_insertAfter (container existing : NodeId) (nodes : List NodeId) :
    Places (insertAfter container existing nodes) container nodes
      fun taken => (taken.indexOf container existing).map fun index => (index + 1, fun cursor =>
        if (index : Int) < cursor then cursor + nodes.length else cursor) := by
  intro forest
  rw [insertAfter, Edit.apply_bind]
  rcases (adopt container nodes).apply forest with ⟨error | _, taken⟩
  · rfl
  · simp only [Edit.apply_bind, Edit.apply_ask]
    cases taken.indexOf container existing <;> rfl

theorem Places.inserts {edit : Edit Unit} {container : NodeId} {nodes : List NodeId}
    {place : Forest → Except EditError (Nat × (Int → Int))}
    (places : Places edit container nodes place)
    (follows : ∀ taken index move, place taken = .ok (index, move) →
      ∀ behind ≤ (taken.children container).length, Follows move index nodes.length behind) :
    Inserts edit container nodes := by
  intro forest
  dsimp only
  rw [places]
  rcases (adopt container nodes).apply forest with ⟨error | _, taken⟩
  · exact .inl rfl
  · dsimp only
    cases isPlace : place taken with
    | error error => exact .inl rfl
    | ok spot => exact .inr ⟨rfl, spot.1, spot.2, rfl, follows taken spot.1 spot.2 isPlace⟩

theorem inserts_append (container : NodeId) (nodes : List NodeId) :
    Inserts (append container nodes) container nodes := by
  refine (places_append container nodes).inserts ?_
  rintro taken index move isPlace behind within
  cases isPlace
  exact .inr ⟨within, rfl⟩

theorem inserts_prepend (container : NodeId) (nodes : List NodeId) :
    Inserts (prepend container nodes) container nodes := by
  refine (places_prepend container nodes).inserts ?_
  rintro taken index move isPlace behind within
  cases isPlace
  exact .inl ⟨Nat.zero_le _, rfl⟩

/-- Nodes are put in at a child. -/
theorem Places.inserts_at {edit : Edit Unit} {container existing : NodeId} {nodes : List NodeId}
    {spot : Nat → Nat × (Int → Int)}
    (places : Places edit container nodes fun taken =>
      (taken.indexOf container existing).map spot)
    (follows : ∀ found behind, Follows (spot found).2 (spot found).1 nodes.length behind) :
    Inserts edit container nodes := by
  refine places.inserts ?_
  intro taken index move isPlace behind within
  cases isIndex : taken.indexOf container existing with
  | error error =>
      rw [isIndex] at isPlace
      cases isPlace
  | ok found =>
      rw [isIndex] at isPlace
      obtain ⟨rfl, rfl⟩ := Prod.mk.inj (Except.ok.inj isPlace)
      exact follows found behind

theorem inserts_insertBefore (container existing : NodeId) (nodes : List NodeId) :
    Inserts (insertBefore container existing nodes) container nodes := by
  refine (places_insertBefore container existing nodes).inserts_at fun found behind => ?_
  dsimp only [Follows]
  split <;> omega

theorem inserts_insertAfter (container existing : NodeId) (nodes : List NodeId) :
    Inserts (insertAfter container existing nodes) container nodes := by
  refine (places_insertAfter container existing nodes).inserts_at fun found behind => ?_
  dsimp only [Follows]
  split <;> omega

/-! ## Courses -/

/-- How the two sides of a cursor change over the moments of a walk: an operation changes
one of them at each of its steps, and passing a node moves it from one side to the
other. -/
inductive Course (container : NodeId) (key : Nat) :
    List NodeId → List NodeId → List Moment → List NodeId → List NodeId → Prop
  | stop (behind ahead : List NodeId) : Course container key behind ahead [] behind ahead
  | changed {behind ahead behind' ahead' behindEnd aheadEnd : List NodeId} {forest : Forest}
      {log : List Moment} (slides : Slides behind ahead behind' ahead') (sound : Sound forest)
      (divides : Divides forest container key behind' ahead')
      (others : Course container key behind' ahead' log behindEnd aheadEnd) :
      Course container key behind ahead (.changed forest :: log) behindEnd aheadEnd
  | passed {behind ahead behindEnd aheadEnd : List NodeId} {node : NodeId} {log : List Moment}
      (others : Course container key (behind ++ [node]) ahead log behindEnd aheadEnd) :
      Course container key behind (node :: ahead) (.passed node :: log) behindEnd aheadEnd

variable {forest forest' forest'' : Forest} {container other id key : Nat}
  {behind ahead behind' ahead' behindEnd aheadEnd nodes : List NodeId}
  {log log' : List Moment} {node : NodeId}

theorem Course.append (first : Course container key behind ahead log behind' ahead')
    (second : Course container key behind' ahead' log' behindEnd aheadEnd) :
    Course container key behind ahead (log ++ log') behindEnd aheadEnd := by
  induction first with
  | stop => exact second
  | changed slides sound divides _ inductionHypothesis =>
      exact .changed slides sound divides (inductionHypothesis second)
  | passed _ inductionHypothesis => exact .passed (inductionHypothesis second)

theorem Course.exists_of_append
    (course : Course container key behind ahead (log ++ log') behindEnd aheadEnd) :
    ∃ behind' ahead', Course container key behind ahead log behind' ahead' ∧
      Course container key behind' ahead' log' behindEnd aheadEnd := by
  induction log generalizing behind ahead with
  | nil => exact ⟨behind, ahead, .stop behind ahead, course⟩
  | cons moment rest inductionHypothesis =>
      cases course with
      | changed slides sound divides others =>
          obtain ⟨behind', ahead', first, second⟩ := inductionHypothesis others
          exact ⟨behind', ahead', .changed slides sound divides first, second⟩
      | passed others =>
          obtain ⟨behind', ahead', first, second⟩ := inductionHypothesis others
          exact ⟨behind', ahead', .passed first, second⟩

/-- Nodes that are children all the time are passed if they are ahead, and in their
order. -/
theorem Course.filter_passes (course : Course container key behind ahead log behindEnd [])
    (nodup : (behind ++ ahead).Nodup) {isStaying : NodeId → Bool}
    (before : ∀ node, isStaying node → node ∈ behind ++ ahead)
    (after : ∀ node, isStaying node → stays log container node) :
    (passes log).filter isStaying = ahead.filter isStaying := by
  generalize isEnd : ([] : List NodeId) = aheadEnd at course
  induction course with
  | stop => rw [← isEnd]; rfl
  | changed slides sound divides _ inductionHypothesis =>
      have isChild : ∀ node, isStaying node → node ∈ _ ++ _ := fun node isIn => by
        have here := after node isIn
        simp only [stays, List.all_cons, Bool.and_eq_true, List.contains_iff_mem] at here
        exact divides.children ▸ here.1
      have nodup' := divides.children ▸ sound.nodup container
      rw [← slides.filter_ahead nodup before isChild]
      refine inductionHypothesis nodup' isChild (fun node isIn => ?_) isEnd
      have here := after node isIn
      simp only [stays, List.all_cons, Bool.and_eq_true] at here
      exact here.2
  | passed _ inductionHypothesis =>
      have rest := inductionHypothesis (by simpa using nodup)
        (fun node isIn => by simpa using before node isIn)
        (fun node isIn => by simpa [stays] using after node isIn) isEnd
      simp only [passes, List.filterMap_cons, List.filter_cons] at rest ⊢
      rw [rest]

/-- A node that is never a child is not passed. -/
theorem Course.not_mem_passes (course : Course container key behind ahead log behindEnd aheadEnd)
    (before : node ∉ behind ++ ahead) (missing : isMissing log container node) :
    node ∉ passes log := by
  induction course with
  | stop => simp [passes]
  | changed slides sound divides _ inductionHypothesis =>
      simp only [isMissing, List.all_cons, Bool.and_eq_true, Bool.not_eq_true',
        List.contains_eq_mem, decide_eq_false_iff_not] at missing
      have isGone := divides.children ▸ missing.1
      simpa [passes] using inductionHypothesis isGone (by simpa [isMissing] using missing.2)
  | passed _ inductionHypothesis =>
      have rest := inductionHypothesis (by simpa using before) (by simpa [isMissing] using missing)
      simp only [List.mem_append, List.mem_cons, not_or] at before
      simp only [passes, List.filterMap_cons, List.mem_cons, not_or] at rest ⊢
      exact ⟨before.2.1, rest⟩

/-! ## What operations do to a cursor -/

/-- Going from one forest to another, with these moments on the way, does to a cursor what
a course says. -/
def Leads (container : NodeId) (key : Nat) (forest : Forest) (log : List Moment)
    (forest' : Forest) : Prop :=
  ∀ behind ahead, forest.Sound → forest.Divides container key behind ahead →
    forest'.Sound ∧ ∃ behind' ahead', Course container key behind ahead log behind' ahead' ∧
      forest'.Divides container key behind' ahead'

theorem Leads.refl (container : NodeId) (key : Nat) (forest : Forest) :
    Leads container key forest [] forest :=
  fun behind ahead sound divides => ⟨sound, behind, ahead, .stop behind ahead, divides⟩

theorem Leads.trans (first : Leads container key forest log forest')
    (second : Leads container key forest' log' forest'') :
    Leads container key forest (log ++ log') forest'' := by
  intro behind ahead sound divides
  obtain ⟨sound', behind', ahead', course, divides'⟩ := first behind ahead sound divides
  obtain ⟨sound'', behind'', ahead'', course', divides''⟩ := second behind' ahead' sound' divides'
  exact ⟨sound'', behind'', ahead'', course.append course', divides''⟩

/-- A single step, after which the forest is noted. -/
theorem Leads.changed
    (step : ∀ behind ahead, forest.Sound → forest.Divides container key behind ahead →
      forest'.Sound ∧ ∃ behind' ahead', Slides behind ahead behind' ahead' ∧
        forest'.Divides container key behind' ahead') :
    Leads container key forest [.changed forest'] forest' := by
  intro behind ahead sound divides
  obtain ⟨sound', behind', ahead', slides, divides'⟩ := step behind ahead sound divides
  exact ⟨sound', behind', ahead', .changed slides sound' divides' (.stop behind' ahead'), divides'⟩

theorem Leads.unchanged (container : NodeId) (key : Nat) (forest : Forest) :
    Leads container key forest [.changed forest] forest :=
  .changed fun behind ahead sound divides => ⟨sound, behind, ahead, .stay behind ahead, divides⟩

theorem Leads.takesOut (takesOut : TakesOut id forest forest') :
    Leads container key forest [.changed forest'] forest' :=
  .changed fun _ _ sound divides => ⟨sound.takesOut takesOut, divides.takesOut takesOut⟩

theorem leads_removeChild (container : NodeId) (key : Nat) (forest : Forest)
    (holder child : NodeId) :
    Leads container key forest [.changed ((removeChild holder child).apply forest).2]
      ((removeChild holder child).apply forest).2 := by
  rcases apply_removeChild_cases forest holder child with ⟨error, failed⟩ |
    ⟨removed, takesOut, isRemoved⟩
  · rw [failed]
    exact .unchanged container key forest
  · rw [isRemoved]
    exact .takesOut takesOut

theorem leads_remove (container : NodeId) (key : Nat) (forest : Forest) (id : NodeId) :
    Leads container key forest [.changed ((remove id).apply forest).2]
      ((remove id).apply forest).2 := by
  rcases apply_remove_cases forest id with ⟨error, failed⟩ | ⟨removed, takesOut, isRemoved⟩
  · rw [failed]
    exact .unchanged container key forest
  · rw [isRemoved]
    exact .takesOut takesOut

theorem leads_adoptOne (container : NodeId) (key : Nat) (forest : Forest) (holder : NodeId)
    (inUse : id < forest.size) :
    Leads container key forest [.changed ((adoptOne holder id).apply forest).2]
      ((adoptOne holder id).apply forest).2 := by
  rcases apply_adoptOne_cases forest holder id with ⟨error, failed⟩ |
    ⟨removed, takesOut, isTaken⟩
  · rw [failed]
    exact .unchanged container key forest
  · rw [isTaken]
    refine .changed fun behind ahead sound divides => ?_
    obtain ⟨behind', ahead', slides, divides'⟩ := divides.takesOut takesOut
    have loose := sound.loose_of_takesOut takesOut
    exact ⟨(sound.takesOut takesOut).claim holder (takesOut.size_eq ▸ inUse) loose,
      behind', ahead', slides, divides'.claim holder id⟩

theorem size_adoptOne (forest : Forest) (holder id : NodeId) :
    ((adoptOne holder id).apply forest).2.size = forest.size := by
  rcases apply_adoptOne_cases forest holder id with ⟨error, failed⟩ |
    ⟨removed, takesOut, isTaken⟩
  · rw [failed]
  · rw [isTaken, size_claim, takesOut.size_eq]

theorem leads_adopt (container : NodeId) (key : Nat) (forest : Forest) (holder : NodeId)
    (inUse : ∀ node ∈ nodes, node < forest.size) :
    Leads container key forest ((adoptions holder nodes forest).map .changed)
      ((adopt holder nodes).apply forest).2 := by
  induction nodes generalizing forest with
  | nil => exact .refl container key forest
  | cons id ids inductionHypothesis =>
      rcases List.forall_mem_cons.mp inUse with ⟨here, later⟩
      have first := leads_adoptOne container key forest holder here
      have sameSize := size_adoptOne forest holder id
      rw [apply_adopt_cons, adoptions]
      generalize (adoptOne holder id).apply forest = result at first sameSize ⊢
      rcases result with ⟨error | _, taken⟩
      · exact first
      · exact first.trans (inductionHypothesis taken (sameSize ▸ later))

/-- The nodes that have been taken wait to be put in. -/
theorem Pending.adopt {earlier : List NodeId} (pending : Pending forest container earlier)
    (sound : Sound forest) (inUse : ∀ node ∈ nodes, node < forest.size)
    (isTaken : ((adopt container nodes).apply forest).1 = .ok ()) :
    Pending ((Forest.adopt container nodes).apply forest).2 container (earlier ++ nodes) := by
  induction nodes generalizing forest earlier with
  | nil => simpa [Forest.adopt] using pending
  | cons id ids inductionHypothesis =>
      rcases List.forall_mem_cons.mp inUse with ⟨here, later⟩
      rw [apply_adopt_cons] at isTaken ⊢
      rcases apply_adoptOne_cases forest container id with ⟨error, failed⟩ |
        ⟨removed, takesOut, isAdopted⟩
      · rw [failed] at isTaken
        cases isTaken
      · rw [isAdopted] at isTaken ⊢
        have sound' := (sound.takesOut takesOut).claim container (takesOut.size_eq ▸ here)
          (sound.loose_of_takesOut takesOut)
        have later' : ∀ node ∈ ids, node < (removed.claim container id).size := by
          simpa [takesOut.size_eq] using later
        have others := inductionHypothesis (pending.claim sound here takesOut) sound' later' isTaken
        simpa using others

/-- Taking nodes and putting them in. -/
theorem Inserts.leads {edit : Edit Unit} (inserts : Inserts edit other nodes)
    (inUse : ∀ node ∈ nodes, node < forest.size) :
    Leads container key forest
      ((adoptions other nodes forest ++ [(edit.apply forest).2]).map .changed)
      (edit.apply forest).2 := by
  intro behind ahead sound divides
  have leads := leads_adopt container key forest other inUse
  have last : Leads container key ((adopt other nodes).apply forest).2
      [.changed (edit.apply forest).2] (edit.apply forest).2 := by
    rcases inserts forest with failed | ⟨isTaken, index, move, isPut, follows⟩
    · rw [failed]
      exact .unchanged container key _
    · rw [isPut]
      have pending := (Pending.nil forest other).adopt sound inUse isTaken
      refine .changed fun behind ahead sound divides => ⟨sound.put pending index move, ?_⟩
      refine divides.put pending fun same => follows behind.length ?_
      subst same
      rw [divides.children, List.length_append]
      exact Nat.le_add_right _ _
  rw [List.map_append]
  exact (leads.trans last) behind ahead sound divides

theorem apply_requireParent_bind {α : Type} (forest : Forest) (id : NodeId)
    (next : NodeId → Edit α) :
    (requireParent id >>= next).apply forest =
      match forest.parent? id with
      | some parent => (next parent).apply forest
      | none => (.error (.noParent (forest.kindName id)), forest) := by
  rw [Edit.apply_bind, requireParent, Edit.apply_ask]
  cases forest.parent? id <;> rfl

theorem leads_create (container : NodeId) (key : Nat) (forest : Forest) (kind : Kind)
    (source : Option String) :
    Leads container key forest [.changed (forest.add { kind, source })]
      (forest.add { kind, source }) := by
  refine .changed fun behind ahead sound divides =>
    ⟨sound.add kind source, behind, ahead, .stay behind ahead, ?_⟩
  have old : container ≠ forest.size := Nat.ne_of_lt divides.inUse
  refine ⟨?_, ?_, ?_, divides.older⟩
  · simpa [children, cell_add, old] using divides.children
  · simpa [cursor?, cell_add, old] using divides.cursor
  · simpa using Nat.lt_succ_of_lt divides.inUse

theorem leads_replaceWith (container : NodeId) (key : Nat) (forest : Forest) (id : NodeId)
    (inUse : ∀ node ∈ nodes, node < forest.size) :
    Leads container key forest
      (((Operation.replaceWith id nodes).onTheWay forest ++
        [((replaceWith id nodes).apply forest).2]).map .changed)
      ((replaceWith id nodes).apply forest).2 := by
  rw [replaceWith, apply_requireParent_bind, Operation.onTheWay]
  cases isParent : forest.parent? id with
  | none => exact .unchanged container key forest
  | some parent =>
      have inserted : Leads container key forest _ _ :=
        (inserts_insertBefore parent id nodes).leads inUse
      dsimp only
      rw [Edit.apply_bind, List.map_append]
      generalize (insertBefore parent id nodes).apply forest = result at inserted ⊢
      rcases result with ⟨error | _, placed⟩
      · exact inserted.trans (.unchanged container key placed)
      · exact inserted.trans (leads_removeChild container key placed parent id)

/-- An operation leads to the forest that it ends with. -/
theorem leads_operation (container : NodeId) (key : Nat) (forest : Forest)
    (operation : Operation) :
    Leads container key forest ((operation.trail forest).map .changed)
      (operation.apply forest).2 := by
  unfold Operation.trail Operation.apply
  split
  · rename_i allowed
    have inUse : ∀ node ∈ operation.names, node < forest.size := by
      simpa [Operation.isAllowed] using allowed
    cases operation with
    | create kind source => exact leads_create container key forest kind source
    | append other nodes => exact (inserts_append other nodes).leads (by grind [Operation.names])
    | prepend other nodes => exact (inserts_prepend other nodes).leads (by grind [Operation.names])
    | insertBefore other existing nodes =>
        exact (inserts_insertBefore other existing nodes).leads (by grind [Operation.names])
    | insertAfter other existing nodes =>
        exact (inserts_insertAfter other existing nodes).leads (by grind [Operation.names])
    | removeChild other child => exact leads_removeChild container key forest other child
    | remove id => exact leads_remove container key forest id
    | before id nodes =>
        simp only [Operation.edit, Forest.before, apply_requireParent_bind, Operation.onTheWay]
        cases isParent : forest.parent? id with
        | none => exact .unchanged container key forest
        | some parent =>
            exact (inserts_insertBefore parent id nodes).leads (by grind [Operation.names])
    | after id nodes =>
        simp only [Operation.edit, Forest.after, apply_requireParent_bind, Operation.onTheWay]
        cases isParent : forest.parent? id with
        | none => exact .unchanged container key forest
        | some parent =>
            exact (inserts_insertAfter parent id nodes).leads (by grind [Operation.names])
    | replaceWith id nodes =>
        exact leads_replaceWith container key forest id (by grind [Operation.names])
  · exact .unchanged container key forest

end Forest

end ContainerPreview
