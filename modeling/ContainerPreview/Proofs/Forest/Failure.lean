import ContainerPreview.Proofs.Forest.Placement

/-!
# What a failed edit leaves

An edit takes its nodes one after another and only then looks for the place to put them in.
If it fails, the nodes that it has taken by then stay taken: they have the container as their
parent and are the children of nothing.  These are the nodes at the start of the row up to the
first one that the container may not take.  So a failed edit leaves the forest as it was exactly
if it failed at the first node.
-/

namespace ContainerPreview

namespace Forest

variable {forest forest' before : Forest} {container id : NodeId} {nodes taken start : List NodeId}
  {error : EditError}

/-! ## The start of a row -/

theorem MayTake.of_prefix (may : MayTake forest container nodes) (isStart : start <+: nodes) :
    MayTake forest container start where
  nodup := may.nodup.sublist isStart.sublist
  isFree node member := may.isFree node (isStart.subset member)

/-- The nodes of a row up to the first one that the container may not take. -/
structure LongestStart (forest : Forest) (container : NodeId) (nodes taken : List NodeId) :
    Prop where
  isStart : taken <+: nodes
  may : MayTake forest container taken
  longest : ∀ start, start <+: nodes → MayTake forest container start → start <+: taken

theorem LongestStart.whole (may : MayTake forest container nodes) :
    LongestStart forest container nodes nodes :=
  ⟨List.prefix_refl nodes, may, fun _ isStart _ => isStart⟩

/-- A node that may not be taken ends the row. -/
theorem LongestStart.stop (may : MayTake forest container taken)
    (mayNot : ¬ MayTake forest container (taken ++ [id])) :
    LongestStart forest container (taken ++ id :: nodes) taken := by
  refine ⟨List.prefix_append taken _, may, fun start isStart mayStart => ?_⟩
  have next : taken ++ [id] <+: taken ++ id :: nodes := by
    rw [List.append_cons taken id nodes]
    exact List.prefix_append _ nodes
  rcases List.prefix_or_prefix_of_prefix isStart next with shorter | longer
  · rcases List.prefix_concat_iff.mp shorter with rfl | isPrefix
    · exact absurd mayStart mayNot
    · exact isPrefix
  · exact absurd (mayStart.of_prefix longer) mayNot

/-! ## Failed steps -/

/-- A container that fails to take one more node leaves the forest as it is, and may not take
the node. -/
theorem Took.adoptOne_fails (took : Took before forest container taken)
    (taking : Taking forest container taken) (may : MayTake before container taken)
    (isContainer : (forest.cell container).kind.isContainer) (inUse : id < forest.size)
    (failed : (Forest.adoptOne container id).apply forest = (.error error, forest')) :
    forest' = forest ∧ ¬ MayTake before container (taken ++ [id]) := by
  refine ⟨?_, fun mayOne => ?_⟩
  · rcases apply_adoptOne_cases forest container id with ⟨_, isFailed⟩ | ⟨_, -, isAdopted⟩
    · rw [isFailed] at failed
      exact (Prod.mk.inj failed).2.symm
    · rw [isAdopted] at failed
      cases failed
  · obtain ⟨adopted, isAdopted, -⟩ :=
      (took.adoptOne taking may isContainer inUse).1 mayOne
    rw [isAdopted] at failed
    cases failed

/-- A container that fails to take a row of nodes has taken those up to the first one that it
may not take. -/
theorem Took.adopt_fails (took : Took before forest container taken)
    (taking : Taking forest container taken) (may : MayTake before container taken)
    (isContainer : (forest.cell container).kind.isContainer)
    (inUse : ∀ node ∈ nodes, node < forest.size)
    (failed : (Forest.adopt container nodes).apply forest = (.error error, forest')) :
    ∃ more, LongestStart before container (taken ++ nodes) (taken ++ more) ∧
      Took before forest' container (taken ++ more) ∧ (more = [] → forest' = forest) := by
  induction nodes generalizing forest taken with
  | nil => cases failed
  | cons id ids inductionHypothesis =>
      obtain ⟨here, later⟩ := List.forall_mem_cons.mp inUse
      rw [apply_adopt_cons] at failed
      rcases isResult : (Forest.adoptOne container id).apply forest with ⟨_ | _, adopted⟩
      · rw [isResult] at failed
        cases failed
        obtain ⟨rfl, mayNot⟩ := took.adoptOne_fails taking may isContainer here isResult
        refine ⟨[], ?_, by rwa [List.append_nil], fun _ => rfl⟩
        rw [List.append_nil]
        exact .stop may mayNot
      · rw [isResult] at failed
        dsimp only at failed
        obtain ⟨succeeds, fails⟩ := took.adoptOne taking may isContainer here
        by_cases mayOne : MayTake before container (taken ++ [id])
        · obtain ⟨adopted', isAdopted, took', taking'⟩ := succeeds mayOne
          obtain rfl : adopted = adopted' := (Prod.mk.inj (isResult.symm.trans isAdopted)).2
          have sameSize : adopted.size = forest.size := took'.size.trans took.size.symm
          have isContainer' : (adopted.cell container).kind.isContainer := by
            rw [took'.kind, ← took.kind]
            exact isContainer
          obtain ⟨more, isLongest, took'', -⟩ :=
            inductionHypothesis took' taking' mayOne isContainer' (sameSize ▸ later) failed
          refine ⟨id :: more, ?_, ?_, nofun⟩
          · rwa [List.append_cons, List.append_cons taken id more]
          · rwa [List.append_cons]
        · obtain ⟨_, _, isFailed, -⟩ := fails mayOne
          rw [isFailed] at isResult
          cases isResult

/-- What an edit leaves that has failed to take nodes for a container or to put them in. -/
def LeavesTaken (forest forest' : Forest) (container : NodeId) (nodes : List NodeId) : Prop :=
  ∃ taken, LongestStart forest container nodes taken ∧ Took forest forest' container taken ∧
    (taken = [] → forest' = forest)

/-- What an edit leaves that has failed to take nodes for a container, if it takes them for any. -/
def LeavesAt (forest forest' : Forest) (taker : Option NodeId) (nodes : List NodeId) : Prop :=
  (taker = none → forest' = forest) ∧
    ∀ container, taker = some container → LeavesTaken forest forest' container nodes

theorem LeavesAt.some (leaves : LeavesTaken forest forest' container nodes) :
    LeavesAt forest forest' (some container) nodes := by
  refine ⟨nofun, ?_⟩
  rintro _ ⟨⟩
  exact leaves

theorem LeavesAt.none (same : forest' = forest) (nodes : List NodeId) :
    LeavesAt forest forest' none nodes :=
  ⟨fun _ => same, nofun⟩

theorem Places.fails {edit : Edit Unit} {place : Forest → Except EditError (Nat × (Int → Int))}
    (places : Places edit container nodes place) (linked : WellLinked forest)
    (isContainer : (forest.cell container).kind.isContainer)
    (inUse : ∀ node ∈ nodes, node < forest.size)
    (failed : edit.apply forest = (.error error, forest')) :
    LeavesTaken forest forest' container nodes := by
  have took := Took.refl forest container
  have taking := linked.taking container
  have may : MayTake forest container [] := ⟨List.nodup_nil, List.forall_mem_nil _⟩
  rw [places] at failed
  rcases isTaken : (adopt container nodes).apply forest with ⟨_ | _, taken⟩
  · rw [isTaken] at failed
    cases failed
    obtain ⟨more, isLongest, took', same⟩ := took.adopt_fails taking may isContainer inUse isTaken
    exact ⟨more, isLongest, took', same⟩
  · rw [isTaken] at failed
    dsimp only at failed
    obtain ⟨succeeds, fails⟩ := took.adopt taking may isContainer inUse
    rw [List.nil_append] at succeeds fails
    have mayAll : MayTake forest container nodes := by
      by_contra mayNot
      obtain ⟨_, _, isFailed, -⟩ := fails mayNot
      rw [isFailed] at isTaken
      cases isTaken
    obtain ⟨taken', isTaken', took', -⟩ := succeeds mayAll
    obtain rfl : taken = taken' := (Prod.mk.inj (isTaken.symm.trans isTaken')).2
    have same : nodes = [] → taken = forest := by
      rintro rfl
      cases isTaken
      rfl
    cases isPlace : place taken with
    | error other =>
        rw [isPlace] at failed
        cases failed
        exact ⟨nodes, .whole mayAll, took', same⟩
    | ok spot =>
        rw [isPlace] at failed
        cases failed

/-! ## Failed operations -/

/-- The container that an operation takes nodes for, if there is one. -/
def Operation.taker? (forest : Forest) : Operation → Option NodeId
  | .append container _ | .prepend container _ | .insertBefore container _ _
  | .insertAfter container _ _ => some container
  | .before id _ | .after id _ | .replaceWith id _ => forest.parent? id
  | .create _ _ | .removeChild _ _ | .remove _ => none

/-- The nodes that an operation is to put in. -/
def Operation.added : Operation → List NodeId
  | .append _ nodes | .prepend _ nodes | .insertBefore _ _ nodes | .insertAfter _ _ nodes
  | .before _ nodes | .after _ nodes | .replaceWith _ nodes => nodes
  | .create _ _ | .removeChild _ _ | .remove _ => []

/-- All nodes have the same parents, files and children in both forests. -/
structure SameNodes (forest forest' : Forest) : Prop where
  parent : ∀ id, forest'.parent? id = forest.parent? id
  source : ∀ id, (forest'.cell id).source = (forest.cell id).source
  children : ∀ id, forest'.children id = forest.children id

/-- Taking a node does not leave all nodes as they were: the node becomes a child of nothing, and
was one of the container if it had that as its parent. -/
theorem Took.sameNodes_iff (took : Took forest forest' container taken) (linked : WellLinked forest)
    (same : taken = [] → forest' = forest) : SameNodes forest forest' ↔ taken = [] := by
  constructor
  · intro sameNodes
    refine List.eq_nil_iff_forall_not_mem.mpr fun node isTaken => ?_
    have isParent : forest.parent? node = some container := by
      rw [← sameNodes.parent, took.parent, if_pos isTaken]
    have member := (linked.mem_children_iff container node).mpr isParent
    rw [← sameNodes.children, took.children, mem_remaining] at member
    exact member.2 isTaken
  · intro isNone
    rw [same isNone]
    exact ⟨fun _ => rfl, fun _ => rfl, fun _ => rfl⟩

/-- Once the nodes have been put in before a child, the child is there to be taken out.  So it was
putting them in that failed. -/
theorem insertBefore_removeChild_fails (linked : WellLinked forest)
    (isContainer : (forest.cell container).kind.isContainer)
    (inUse : ∀ node ∈ container :: nodes, node < forest.size)
    (failed : (insertBefore container id nodes >>= fun _ => removeChild container id).apply forest =
      (.error error, forest')) : LeavesTaken forest forest' container nodes := by
  have places := places_insertBefore container id nodes
  have nodesInUse := (List.forall_mem_cons.mp inUse).2
  obtain ⟨succeeds, -⟩ := insertBefore_removeChild_succeedsIf linked isContainer inUse id
  obtain ⟨-, fails⟩ := insertBefore_succeedsIf linked isContainer inUse id
  by_cases allowed : (id ∈ forest.children container ∧ id ∉ nodes) ∧
      MayTake forest container nodes
  · obtain ⟨_, done, -⟩ := succeeds allowed
    cases done.symm.trans failed
  · obtain ⟨_, _, isFailed, -⟩ := fails allowed
    rw [Edit.apply_bind, isFailed] at failed
    cases failed
    exact places.fails linked isContainer nodesInUse isFailed

/-- An edit beside a node fails without a parent or as an edit of its parent. -/
theorem requireParent_fails (linked : WellLinked forest) {next : NodeId → Edit Unit}
    (fails : ∀ parent, (forest.cell parent).kind.isContainer → parent < forest.size →
      (next parent).apply forest = (.error error, forest') →
        LeavesTaken forest forest' parent nodes)
    (failed : (requireParent id >>= next).apply forest = (.error error, forest')) :
    LeavesAt forest forest' (forest.parent? id) nodes := by
  rw [apply_requireParent_bind] at failed
  cases isParent : forest.parent? id with
  | none =>
      rw [isParent] at failed
      exact .none (Prod.mk.inj failed).2.symm nodes
  | some parent =>
      rw [isParent] at failed
      have member := (linked.mem_children_iff parent id).mpr isParent
      exact .some
        (fails parent (linked.isContainer parent id member) (inUse_of_mem_children member) failed)

/-- A failed operation has taken the nodes at the start of its row up to the first one that the
container may not take, and done nothing else.  So all nodes are as they were exactly if it has
taken none, and then nothing at all has changed. -/
theorem failed_leaves (linked : WellLinked forest) {operation : Operation}
    (allowed : (Action.operate operation).isAllowed forest)
    (failed : operation.edit.apply forest = (.error error, forest')) :
    (operation.taker? forest = none → forest' = forest) ∧
      ∀ container, operation.taker? forest = some container →
        ∃ taken, LongestStart forest container operation.added taken ∧
          Took forest forest' container taken ∧ (taken = [] → forest' = forest) ∧
          (SameNodes forest forest' ↔ taken = []) := by
  have leaves : LeavesAt forest forest' (operation.taker? forest) operation.added := by
    obtain ⟨inUse, areContainers⟩ := Bool.and_eq_true_iff.mp allowed
    simp only [Operation.isAllowed, List.all_eq_true, decide_eq_true_eq] at inUse areContainers
    cases operation with
    | create kind source => cases failed
    | append container nodes =>
        have isContainer := areContainers container List.mem_cons_self
        have nodesInUse := (List.forall_mem_cons.mp inUse).2
        exact .some ((places_append container nodes).fails linked isContainer nodesInUse failed)
    | prepend container nodes =>
        have isContainer := areContainers container List.mem_cons_self
        have nodesInUse := (List.forall_mem_cons.mp inUse).2
        exact .some
          ((places_prepend container nodes).fails linked isContainer nodesInUse failed)
    | insertBefore container existing nodes =>
        have isContainer := areContainers container List.mem_cons_self
        have nodesInUse := (List.forall_mem_cons.mp (List.forall_mem_cons.mp inUse).2).2
        exact .some ((places_insertBefore container existing nodes).fails linked isContainer
          nodesInUse failed)
    | insertAfter container existing nodes =>
        have isContainer := areContainers container List.mem_cons_self
        have nodesInUse := (List.forall_mem_cons.mp (List.forall_mem_cons.mp inUse).2).2
        exact .some ((places_insertAfter container existing nodes).fails linked isContainer
          nodesInUse failed)
    | removeChild container child =>
        rcases apply_removeChild_cases forest container child with ⟨_, isFailed⟩ | ⟨_, -, removed⟩
        · exact .none (Prod.mk.inj (isFailed.symm.trans failed)).2.symm []
        · cases removed.symm.trans failed
    | remove id =>
        rcases apply_remove_cases forest id with ⟨_, isFailed⟩ | ⟨_, -, removed⟩
        · exact .none (Prod.mk.inj (isFailed.symm.trans failed)).2.symm []
        · cases removed.symm.trans failed
    | before id nodes =>
        have nodesInUse := (List.forall_mem_cons.mp inUse).2
        exact requireParent_fails linked (fun parent isContainer _ failed =>
          (places_insertBefore parent id nodes).fails linked isContainer nodesInUse failed) failed
    | after id nodes =>
        have nodesInUse := (List.forall_mem_cons.mp inUse).2
        exact requireParent_fails linked (fun parent isContainer _ failed =>
          (places_insertAfter parent id nodes).fails linked isContainer nodesInUse failed) failed
    | replaceWith id nodes =>
        have nodesInUse := (List.forall_mem_cons.mp inUse).2
        refine requireParent_fails linked (fun parent isContainer parentInUse failed => ?_) failed
        have inUse' : ∀ node ∈ parent :: nodes, node < forest.size :=
          List.forall_mem_cons.mpr ⟨parentInUse, nodesInUse⟩
        exact insertBefore_removeChild_fails linked isContainer inUse' failed
  refine ⟨leaves.1, fun container isTaker => ?_⟩
  obtain ⟨taken, isLongest, took, same⟩ := leaves.2 container isTaker
  exact ⟨taken, isLongest, took, same, took.sameNodes_iff linked same⟩

/-- A rule is asked to take a declaration of another rule and then the sheet that it is in. -/
def lostOperation : Operation :=
  .append 4 [1, 0]

theorem failed_leaves_lostOperation :
    (WellLinked copiedForest ∧ (Action.operate lostOperation).isAllowed copiedForest ∧
        ∃ forest', lostOperation.edit.apply copiedForest = (.error .ownSubtree, forest')) ∧
      ∃ forest' taken, lostOperation.edit.apply copiedForest = (.error .ownSubtree, forest') ∧
        LongestStart copiedForest 4 [1, 0] taken ∧ Took copiedForest forest' 4 taken ∧
        (SameNodes copiedForest forest' ↔ taken = []) := by
  have allowed : (Action.operate lostOperation).isAllowed copiedForest := by decide +kernel
  have failed : lostOperation.edit.apply copiedForest =
      (.error .ownSubtree, (lostOperation.edit.apply copiedForest).2) := by rfl
  obtain ⟨taken, isLongest, took, -, same⟩ :=
    (failed_leaves wellLinked_copiedForest allowed failed).2 4 rfl
  exact ⟨⟨wellLinked_copiedForest, allowed, _, failed⟩, _, taken, failed, isLongest, took, same⟩

/-- A failed operation need not leave all nodes as they were: the declaration that has been taken
is not put back. -/
theorem not_sameNodes_of_failed :
    ¬ ∀ forest operation error forest', WellLinked forest →
      (Action.operate operation).isAllowed forest →
        operation.edit.apply forest = (.error error, forest') → SameNodes forest forest' := by
  intro atomic
  have sameNodes := atomic copiedForest lostOperation .ownSubtree
    (lostOperation.edit.apply copiedForest).2 wellLinked_copiedForest (by decide +kernel) (by rfl)
  have sameChildren := sameNodes.children 2
  revert sameChildren
  decide +kernel

end Forest

end ContainerPreview
