import ContainerPreview.Proofs.Forest.Linked

/-!
# Taking nodes for a container

A container takes a row of nodes exactly if they are distinct and none of them is the
container or stands above it.  Which nodes stand above the container does not change on the
way, since none of them is taken; so the condition can be stated for the forest before the
first node is taken.

Taking nodes changes what it has to change and nothing else: the containers they stood in
lose them, and they have a new parent, and the source of the parent if they had none.
-/

namespace ContainerPreview

namespace Forest

variable {forest forest' before removed : Forest} {container id other : NodeId}
  {nodes taken : List NodeId}

/-! ## Outcomes of edits -/

/-- The edit succeeds exactly under a condition, and then with a forest as described.
Otherwise it fails with an error about the value of an argument. -/
def SucceedsIf (allowed : Prop) (describes : Forest → Prop)
    (result : Except EditError Unit × Forest) : Prop :=
  (allowed → ∃ forest', result = (.ok (), forest') ∧ describes forest') ∧
    (¬ allowed → ∃ error forest', result = (.error error, forest') ∧ error.isValueError)

theorem SucceedsIf.success {allowed : Prop} {describes : Forest → Prop} (isAllowed : allowed)
    (described : describes forest) : SucceedsIf allowed describes (.ok (), forest) :=
  ⟨fun _ => ⟨forest, rfl, described⟩, fun notAllowed => absurd isAllowed notAllowed⟩

theorem SucceedsIf.failure {allowed : Prop} {describes : Forest → Prop}
    (notAllowed : ¬ allowed) {error : EditError} (isError : error.isValueError) :
    SucceedsIf allowed describes (.error error, forest) :=
  ⟨fun isAllowed => absurd isAllowed notAllowed, fun _ => ⟨error, forest, rfl, isError⟩⟩

theorem SucceedsIf.congr {allowed allowed' : Prop} {describes describes' : Forest → Prop}
    {result : Except EditError Unit × Forest} (succeeds : SucceedsIf allowed describes result)
    (sameAllowed : allowed' ↔ allowed)
    (described : ∀ forest, describes forest → describes' forest) :
    SucceedsIf allowed' describes' result := by
  obtain ⟨succeeds, fails⟩ := succeeds
  refine ⟨fun isAllowed => ?_, fun notAllowed => fails fun isAllowed =>
    notAllowed (sameAllowed.mpr isAllowed)⟩
  obtain ⟨forest', isResult, isDescribed⟩ := succeeds (sameAllowed.mp isAllowed)
  exact ⟨forest', isResult, described forest' isDescribed⟩

/-! ## Taking one node out -/

namespace TakesOut

theorem nextKey_eq (takesOut : TakesOut id forest removed) : removed.nextKey = forest.nextKey := by
  cases takesOut <;> rfl

theorem source_eq (takesOut : TakesOut id forest removed) (other : NodeId) :
    (removed.cell other).source = (forest.cell other).source := by
  cases takesOut with
  | alone => rfl
  | child => exact field_detach Cell.source (fun _ _ _ => rfl) (fun _ => rfl) _ _ _ _ _

theorem covers_eq (takesOut : TakesOut id forest removed) (other : NodeId) :
    (removed.cell other).covers = (forest.cell other).covers := by
  cases takesOut with
  | alone => rfl
  | child => exact field_detach Cell.covers (fun _ _ _ => rfl) (fun _ => rfl) _ _ _ _ _

/-- Only the cursors of the container that the node is taken out of are moved. -/
theorem cursors_eq (takesOut : TakesOut id forest removed) (notHere : id ∉ forest.children other) :
    (removed.cell other).cursors = (forest.cell other).cursors := by
  cases takesOut with
  | alone => rfl
  | child isChild =>
      have different : other ≠ _ := fun same => notHere (same ▸ List.mem_of_getElem? isChild)
      have ofParent := field_update Cell.cursors
        (fun cell : Cell => (rfl : { cell with parent := none }.cursors = cell.cursors))
      rw [detach, ofParent, cell_update_of_ne different]

theorem parent?_eq (takesOut : TakesOut id forest removed) (sound : Sound forest) :
    removed.parent? other = if other = id then none else forest.parent? other := by
  cases takesOut with
  | alone noParent =>
      split
      · rename_i same
        rw [same, noParent]
      · rfl
  | child isChild =>
      exact parent?_detach _ _ _ _ (sound.inUse _ id (List.mem_of_getElem? isChild)) other

/-- Every container loses the node, if it has it. -/
theorem children_eq (takesOut : TakesOut id forest removed) (sound : Sound forest)
    (other : NodeId) : removed.children other = (forest.children other).filter (· ≠ id) := by
  have kept : id ∉ forest.children other →
      forest.children other = (forest.children other).filter (· ≠ id) := fun notHere => by
    refine (List.filter_eq_self.mpr fun child member => ?_).symm
    exact decide_eq_true fun same => notHere (same ▸ member)
  cases takesOut with
  | alone noParent =>
      refine kept fun member => ?_
      rw [sound.parent other id member] at noParent
      cases noParent
  | @child holder index isChild =>
      have member := List.mem_of_getElem? isChild
      rw [children_detach]
      split
      · rename_i same
        subst same
        obtain ⟨within, isId⟩ := List.getElem?_eq_some_iff.mp isChild
        have isIndex : (forest.children other).idxOf id = index := by
          rw [← isId]
          exact (sound.nodup other).idxOf_getElem index within
        rw [← isIndex, List.eraseIdx_idxOf_eq_erase, (sound.nodup other).erase_eq_filter]
        exact List.filter_congr fun child _ => by
          by_cases same : child = id <;> simp [same]
      · rename_i different
        refine kept fun isHere => different ?_
        have parents := (sound.parent other id isHere).symm.trans (sound.parent holder id member)
        exact Option.some.inj parents

end TakesOut

/-! ## Moved nodes -/

/-- The children of a container that are none of the nodes. -/
def remaining (forest : Forest) (container : NodeId) (nodes : List NodeId) : List NodeId :=
  (forest.children container).filter (· ∉ nodes)

/-- Nodes have been moved to a container, which now has the given children, and some have been
detached.  Every other container has lost the nodes, a moved node without a source has that of
the container, and nothing else has changed but cursors over the children of the container and
of those that held one of the nodes. -/
structure Moved (forest forest' : Forest) (container : NodeId)
    (nodes detached children : List NodeId) : Prop where
  size : forest'.size = forest.size
  nextKey : forest'.nextKey = forest.nextKey
  children : forest'.children container = children
  others : ∀ other ≠ container, forest'.children other = forest.remaining other nodes
  parent : ∀ id, forest'.parent? id =
    if id ∈ nodes then some container else if id ∈ detached then none else forest.parent? id
  source : ∀ id, (forest'.cell id).source =
    if id ∈ nodes then (forest.cell id).source.or (forest.cell container).source
    else (forest.cell id).source
  kind : ∀ id, (forest'.cell id).kind = (forest.cell id).kind
  covers : ∀ id, (forest'.cell id).covers = (forest.cell id).covers
  cursors : ∀ other ≠ container, (∀ node ∈ nodes, node ∉ forest.children other) →
    (forest'.cell other).cursors = (forest.cell other).cursors

/-- Nodes have been taken for a container, and none of them has been put in. -/
abbrev Took (forest forest' : Forest) (container : NodeId) (nodes : List NodeId) : Prop :=
  Moved forest forest' container nodes [] (forest.remaining container nodes)

theorem Took.refl (forest : Forest) (container : NodeId) : Took forest forest container [] := by
  constructor <;> simp [remaining]

theorem mem_remaining {child : NodeId} : child ∈ forest.remaining container nodes ↔
    child ∈ forest.children container ∧ child ∉ nodes := by
  simp [remaining]

theorem filter_remaining (forest : Forest) (container : NodeId) (nodes : List NodeId)
    (id : NodeId) : (forest.remaining container nodes).filter (· ≠ id) =
      forest.remaining container (nodes ++ [id]) := by
  rw [remaining, remaining, List.filter_filter]
  refine List.filter_congr fun child _ => ?_
  simp [not_or, and_comm]

/-- One more node is taken. -/
theorem Took.claim (took : Took forest forest' container taken) (sound : Sound forest')
    (inUse : id < forest'.size) (isNew : id ∉ taken) (isFree : container ∉ taken)
    (takesOut : TakesOut id forest' removed) :
    Took forest (removed.claim container id) container (taken ++ [id]) := by
  have inUse' : id < removed.size := takesOut.size_eq ▸ inUse
  have claimed : ∀ other, ((removed.claim container id).cell other) =
      if other = id then { removed.cell id with
        parent := some container
        source := (removed.cell id).source.or (removed.cell container).source }
      else removed.cell other := fun other => by
    rw [Forest.claim, cell_update]
    by_cases same : other = id
    · simp [same, inUse']
    · simp [same]
  have keptField : ∀ {β : Type} (field : Cell → β),
      (∀ (cell : Cell) parent source, field { cell with parent, source } = field cell) →
        ∀ other, field ((removed.claim container id).cell other) = field (removed.cell other) := by
    intro β field same other
    rw [claimed]
    split
    · rename_i isId
      rw [same, isId]
    · rfl
  refine ⟨?_, ?_, ?_, ?_, ?_, ?_, ?_, ?_, ?_⟩
  · rw [size_claim, takesOut.size_eq, took.size]
  · exact takesOut.nextKey_eq.trans took.nextKey
  · rw [children_claim, takesOut.children_eq sound, took.children, filter_remaining]
  · intro other isOther
    rw [children_claim, takesOut.children_eq sound, took.others other isOther, filter_remaining]
  · intro node
    rw [parent?_claim _ _ _ inUse', takesOut.parent?_eq sound, took.parent]
    by_cases same : node = id <;> simp [same]
  · intro node
    rw [claimed]
    by_cases same : node = id
    · simp only [same, if_true]
      rw [takesOut.source_eq, takesOut.source_eq, took.source, took.source, if_neg isNew,
        if_neg isFree, if_pos (by simp)]
    · rw [if_neg same, takesOut.source_eq, took.source]
      simp [same]
  · intro node
    rw [keptField Cell.kind (fun _ _ _ => rfl), takesOut.kind_eq, took.kind]
  · intro node
    rw [keptField Cell.covers (fun _ _ _ => rfl), takesOut.covers_eq, took.covers]
  · intro other isOther notHeld
    have notHere : id ∉ forest'.children other := fun isHere => by
      rw [took.others other isOther, mem_remaining] at isHere
      exact notHeld id (by simp) isHere.1
    rw [keptField Cell.cursors (fun _ _ _ => rfl), takesOut.cursors_eq notHere]
    exact took.cursors other isOther fun node member =>
      notHeld node (List.mem_append_left _ member)

/-! ## Nodes that can be taken -/

/-- The nodes are distinct, and none of them is the container or stands above it. -/
structure MayTake (forest : Forest) (container : NodeId) (nodes : List NodeId) : Prop where
  nodup : nodes.Nodup
  isFree : ∀ node ∈ nodes, node ≠ container ∧ ¬ forest.IsAncestor node container

theorem MayTake.append_singleton (may : MayTake forest container taken) (isNew : id ∉ taken)
    (isFree : id ≠ container ∧ ¬ forest.IsAncestor id container) :
    MayTake forest container (taken ++ [id]) where
  nodup := List.nodup_append.mpr ⟨may.nodup, List.nodup_singleton id, fun node isOld last isLast =>
    fun same => isNew (List.mem_singleton.mp isLast ▸ same ▸ isOld)⟩
  isFree node member := by
    rcases List.mem_append.mp member with isOld | isLast
    · exact may.isFree node isOld
    · exact List.mem_singleton.mp isLast ▸ isFree

theorem isAncestor_of_isAbove {ancestor levels : Nat}
    (isAbove : forest.isAbove ancestor levels id) : forest.IsAncestor ancestor id := by
  induction levels generalizing id with
  | zero => cases isAbove
  | succ levels inductionHypothesis =>
      rw [Forest.isAbove] at isAbove
      split at isAbove
      · cases isAbove
      · rename_i parent isParent
        rcases Bool.or_eq_true_iff.mp isAbove with isHere | further
        · exact .single ((beq_iff_eq.mp isHere) ▸ isParent)
        · exact .tail (inductionHypothesis further) isParent

theorem Taking.mayAdopt_iff (taking : Taking forest container taken) :
    forest.mayAdopt container id ↔ id ≠ container ∧ ¬ forest.IsAncestor id container := by
  refine ⟨taking.not_isAncestor_of_mayAdopt, fun ⟨different, notAbove⟩ => ?_⟩
  have notFound : forest.isAbove id forest.size container = false := by
    rw [Bool.eq_false_iff]
    exact fun isAbove => notAbove (isAncestor_of_isAbove isAbove)
  simp [mayAdopt, different, notFound]

/-- What stands above a node is the same in two forests in which the node and all that stands
above it have the same parents. -/
theorem isAncestor_iff_of_parents
    (same : ∀ node, node = id ∨ forest.IsAncestor node id →
      forest'.parent? node = forest.parent? node) {ancestor : NodeId} :
    forest'.IsAncestor ancestor id ↔ forest.IsAncestor ancestor id := by
  constructor
  · intro isAncestor
    induction isAncestor using Relation.TransGen.head_induction_on with
    | single isParent => exact .single ((same id (.inl rfl)).symm.trans isParent)
    | head isParent _ inductionHypothesis =>
        exact .head ((same _ (.inr inductionHypothesis)).symm.trans isParent) inductionHypothesis
  · intro isAncestor
    induction isAncestor using Relation.TransGen.head_induction_on with
    | single isParent => exact .single ((same id (.inl rfl)).trans isParent)
    | head isParent isAbove inductionHypothesis =>
        exact .head ((same _ (.inr isAbove)).trans isParent) inductionHypothesis

/-- Taking nodes does not change what stands above the container. -/
theorem Took.isAncestor_iff (took : Took forest forest' container taken)
    (may : MayTake forest container taken) {ancestor : NodeId} :
    forest'.IsAncestor ancestor container ↔ forest.IsAncestor ancestor container := by
  refine isAncestor_iff_of_parents fun node orAbove => ?_
  have notTaken : node ∉ taken := fun isTaken => by
    obtain ⟨different, notAbove⟩ := may.isFree node isTaken
    exact orAbove.elim different notAbove
  rw [took.parent, if_neg notTaken, if_neg (List.not_mem_nil)]

/-! ## Adopting nodes -/

theorem exists_indexOf {child : NodeId} (member : child ∈ forest.children container) :
    ∃ index, forest.indexOf container child = .ok index := by
  unfold indexOf
  cases isIndex : (forest.children container).idxOf? child with
  | some index => exact ⟨index, rfl⟩
  | none =>
      rw [List.idxOf?_eq_none_iff] at isIndex
      exact absurd member isIndex

theorem indexOf_of_not_mem {child : NodeId} (notChild : child ∉ forest.children container) :
    forest.indexOf container child =
      .error (.notAChild (forest.kindName child) (forest.kindName container)) := by
  rw [indexOf, List.idxOf?_eq_none_iff.mpr notChild]

/-- A node that has not been taken can be taken out of where it is. -/
theorem Taking.exists_remove (taking : Taking forest container taken) (isNew : id ∉ taken) :
    ∃ removed, TakesOut id forest removed ∧
      (Forest.remove id).apply forest = (.ok (), removed) := by
  rw [apply_remove]
  cases isParent : forest.parent? id with
  | none => exact ⟨forest, .alone isParent, rfl⟩
  | some parent =>
      have member : id ∈ forest.children parent :=
        (taking.mem_of_isParent parent id isParent).resolve_right fun isTaken => isNew isTaken.2
      obtain ⟨index, isIndex⟩ := exists_indexOf member
      dsimp only
      rw [apply_removeChild, isIndex]
      exact ⟨_, .child (getElem?_of_indexOf isIndex), rfl⟩

/-- A node that has been taken already has the container as its parent without being among its
children, so it cannot be taken out again. -/
theorem Taking.remove_fails (taking : Taking forest container taken) (isOld : id ∈ taken) :
    (Forest.remove id).apply forest =
      (.error (.notAChild (forest.kindName id) (forest.kindName container)), forest) := by
  rw [apply_remove, taking.pending.parent id isOld]
  dsimp only
  rw [apply_removeChild, indexOf_of_not_mem (taking.pending.loose id isOld container)]

/-- The container takes one more node, or fails. -/
theorem Took.adoptOne (took : Took before forest container taken)
    (taking : Taking forest container taken) (may : MayTake before container taken)
    (isContainer : (forest.cell container).kind.isContainer) (inUse : id < forest.size) :
    SucceedsIf (MayTake before container (taken ++ [id]))
      (fun forest' => Took before forest' container (taken ++ [id]) ∧
        Taking forest' container (taken ++ [id]))
      ((Forest.adoptOne container id).apply forest) := by
  rw [apply_adoptOne]
  by_cases isFree : id ≠ container ∧ ¬ before.IsAncestor id container
  · have mayAdopt : forest.mayAdopt container id := by
      rw [taking.mayAdopt_iff, took.isAncestor_iff may]
      exact isFree
    rw [if_pos mayAdopt]
    by_cases isNew : id ∈ taken
    · rw [taking.remove_fails isNew]
      refine .failure (fun may' => ?_) rfl
      exact (List.nodup_append.mp may'.nodup).2.2 id isNew id (List.mem_singleton_self id) rfl
    · obtain ⟨removed, takesOut, isRemoved⟩ := taking.exists_remove isNew
      rw [isRemoved]
      have notTaken : container ∉ taken := fun isTaken => (may.isFree container isTaken).1 rfl
      exact .success (may.append_singleton isNew isFree)
        ⟨took.claim taking.sound inUse isNew notTaken takesOut,
          taking.claim isContainer inUse mayAdopt takesOut⟩
  · have notAdopt : ¬ forest.mayAdopt container id := by
      rw [taking.mayAdopt_iff, took.isAncestor_iff may]
      exact isFree
    rw [if_neg notAdopt]
    exact .failure (fun may' => isFree (may'.isFree id (by simp))) rfl

/-- The container takes the rest of a row of nodes, or fails at one of them. -/
theorem Took.adopt (took : Took before forest container taken)
    (taking : Taking forest container taken) (may : MayTake before container taken)
    (isContainer : (forest.cell container).kind.isContainer)
    (inUse : ∀ node ∈ nodes, node < forest.size) :
    SucceedsIf (MayTake before container (taken ++ nodes))
      (fun forest' => Took before forest' container (taken ++ nodes) ∧
        Taking forest' container (taken ++ nodes))
      ((Forest.adopt container nodes).apply forest) := by
  induction nodes generalizing forest taken with
  | nil =>
      rw [List.append_nil]
      exact .success may ⟨took, taking⟩
  | cons id ids inductionHypothesis =>
      obtain ⟨here, later⟩ := List.forall_mem_cons.mp inUse
      rw [apply_adopt_cons, List.append_cons]
      obtain ⟨succeeds, fails⟩ := took.adoptOne taking may isContainer here
      by_cases mayOne : MayTake before container (taken ++ [id])
      · obtain ⟨adopted, isAdopted, took', taking'⟩ := succeeds mayOne
        have sameSize : adopted.size = forest.size := took'.size.trans took.size.symm
        have isContainer' : (adopted.cell container).kind.isContainer := by
          rw [took'.kind, ← took.kind]
          exact isContainer
        rw [isAdopted]
        exact inductionHypothesis took' taking' mayOne isContainer' (sameSize ▸ later)
      · obtain ⟨error, failed, isFailed, isError⟩ := fails mayOne
        rw [isFailed]
        refine .failure (fun may' => mayOne ?_) isError
        exact ⟨(List.nodup_append.mp may'.nodup).1, fun node member =>
          may'.isFree node (List.mem_append_left _ member)⟩

end Forest

end ContainerPreview
