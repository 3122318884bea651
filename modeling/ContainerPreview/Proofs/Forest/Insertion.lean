import ContainerPreview.Proofs.Forest.Placement

/-!
# Nodes that are put in from nowhere

Nodes without a parent, such as nodes that have just been made, can be put into a container at
every place there is.  Then all that changes are the children of the container, the cursors of its
walks, and the parents and files of the nodes.
-/

namespace ContainerPreview

namespace Forest

variable {forest forest' taken : Forest} {container id : NodeId} {nodes : List NodeId}

/-- A node that neither takes part in a move nor holds one of the moved nodes. -/
theorem Moved.cell_eq {container : NodeId} {nodes children : List NodeId}
    (moved : Moved forest forest' container nodes [] children) (different : id ≠ container)
    (notMoved : id ∉ nodes) (notHeld : ∀ node ∈ nodes, node ∉ forest.children id) :
    forest'.cell id = forest.cell id := by
  have sameChildren : forest'.children id = forest.children id := by
    rw [moved.others id different, remaining, List.filter_eq_self]
    exact fun child isChild => decide_eq_true fun isMoved => notHeld child isMoved isChild
  have sameParent : forest'.parent? id = forest.parent? id := by
    rw [moved.parent, if_neg notMoved, if_neg List.not_mem_nil]
  have sameSource := moved.source id
  rw [if_neg notMoved] at sameSource
  calc forest'.cell id
      = ⟨(forest'.cell id).kind, (forest'.cell id).source, forest'.parent? id,
          forest'.children id, (forest'.cell id).cursors, (forest'.cell id).covers⟩ := rfl
    _ = forest.cell id := by
        rw [moved.kind, sameSource, sameParent, sameChildren, moved.cursors id different notHeld,
          moved.covers]
        rfl

/-- A container that takes nodes from nowhere keeps its cursors. -/
theorem cursors_adopt (detached : ∀ node ∈ nodes, forest.parent? node = none)
    (nodup : nodes.Nodup) (done : (adopt container nodes).apply forest = (.ok (), taken)) :
    (taken.cell container).cursors = (forest.cell container).cursors := by
  induction nodes generalizing forest with
  | nil =>
      cases done
      rfl
  | cons id ids inductionHypothesis =>
      obtain ⟨noParent, detached⟩ := List.forall_mem_cons.mp detached
      obtain ⟨notLater, nodup⟩ := List.nodup_cons.mp nodup
      rw [apply_adopt_cons, apply_adoptOne, apply_remove, noParent] at done
      split_ifs at done with may
      · have stillDetached : ∀ node ∈ ids, (forest.claim container id).parent? node = none := by
          intro node member
          have different : node ≠ id := fun same => notLater (same ▸ member)
          rw [parent?, claim, cell_update_of_ne different]
          exact detached node member
        rw [inductionHypothesis stillDetached nodup done, claim]
        exact field_update Cell.cursors (by exact fun _ => rfl) forest id container
      · cases done

/-- What has become of a forest when nodes from nowhere have been put into a container. -/
structure Inserted (forest forest' : Forest) (container : NodeId) (nodes : List NodeId)
    (index : Nat) (move : Int → Int) : Prop where
  linked : WellLinked forest'
  size : forest'.size = forest.size
  holder : forest'.cell container =
    { forest.cell container with
      children :=
        (forest.children container).take index ++ nodes ++ (forest.children container).drop index
      cursors := (forest.cell container).cursors.map fun cursor =>
        { cursor with index := move cursor.index } }
  inserted : ∀ node ∈ nodes, forest'.cell node =
    { forest.cell node with
      parent := some container
      source := (forest.cell node).source.or (forest.cell container).source }
  others : ∀ id ≠ container, id ∉ nodes → forest'.cell id = forest.cell id

/-- Nodes that stand nowhere can be put into a container. -/
theorem Places.exists_inserted {edit : Edit Unit}
    {place : Forest → Except EditError (Nat × (Int → Int))}
    (places : Places edit container nodes place) (linked : WellLinked forest)
    (isContainer : (forest.cell container).kind.isContainer)
    (inUse : ∀ node ∈ container :: nodes, node < forest.size)
    (detached : ∀ node ∈ nodes, forest.parent? node = none)
    (may : MayTake forest container nodes) (index : Nat) {move : Int → Int}
    (isPlace : ∀ taken : Forest, taken.children container = forest.children container →
      place taken = .ok (index, move)) :
    ∃ forest', edit.apply forest = (.ok (), forest') ∧
      Inserted forest forest' container nodes index move := by
  obtain ⟨containerInUse, nodesInUse⟩ := List.forall_mem_cons.mp inUse
  obtain ⟨taken, isTaken, took, -⟩ := ((Took.refl forest container).adopt (linked.taking container)
    ⟨List.nodup_nil, List.forall_mem_nil _⟩ isContainer nodesInUse).1 may
  have notHeld : ∀ other, ∀ node ∈ nodes, node ∉ forest.children other := by
    intro other node member isChild
    have isParent := (linked.mem_children_iff other node).mp isChild
    rw [detached node member] at isParent
    cases isParent
  have allRemain : ∀ other, forest.remaining other nodes = forest.children other := fun other =>
    List.filter_eq_self.mpr fun child isChild =>
      decide_eq_true fun isMoved => notHeld other child isMoved isChild
  rw [List.nil_append] at took
  have isDone : edit.apply forest = (.ok (), taken.put container index nodes move) := by
    rw [places, isTaken]
    dsimp only
    rw [isPlace taken (took.children.trans (allRemain container))]
  have moved := Moved.put took containerInUse index move
  rw [allRemain] at moved
  obtain ⟨linked', size⟩ := linked.places places isContainer inUse isDone
  have notContainer : container ∉ nodes := fun member => (may.isFree container member).1 rfl
  refine ⟨_, isDone, linked', size, ?_, fun node member => ?_, fun id different notMoved =>
    moved.cell_eq different notMoved (notHeld id)⟩
  · have sameParent := moved.parent container
    have sameSource := moved.source container
    rw [if_neg notContainer, if_neg List.not_mem_nil] at sameParent
    rw [if_neg notContainer] at sameSource
    have cursors : ((taken.put container index nodes move).cell container).cursors =
        (forest.cell container).cursors.map fun cursor =>
          { cursor with index := move cursor.index } := by
      rw [put, cell_update_self (took.size ▸ containerInUse)]
      exact congrArg _ (cursors_adopt detached may.nodup isTaken)
    calc (taken.put container index nodes move).cell container
        = ⟨((taken.put container index nodes move).cell container).kind,
            ((taken.put container index nodes move).cell container).source,
            (taken.put container index nodes move).parent? container,
            (taken.put container index nodes move).children container,
            ((taken.put container index nodes move).cell container).cursors,
            ((taken.put container index nodes move).cell container).covers⟩ := rfl
      _ = _ := by
          rw [moved.kind, sameSource, sameParent, moved.children, cursors, moved.covers]
          rfl
  · have different : node ≠ container := (may.isFree node member).1
    have newParent := moved.parent node
    have newSource := moved.source node
    have sameChildren := moved.others node different
    rw [if_pos member] at newParent newSource
    rw [allRemain] at sameChildren
    calc (taken.put container index nodes move).cell node
        = ⟨((taken.put container index nodes move).cell node).kind,
            ((taken.put container index nodes move).cell node).source,
            (taken.put container index nodes move).parent? node,
            (taken.put container index nodes move).children node,
            ((taken.put container index nodes move).cell node).cursors,
            ((taken.put container index nodes move).cell node).covers⟩ := rfl
      _ = _ := by
          rw [moved.kind, newSource, newParent, sameChildren,
            moved.cursors node different (notHeld node), moved.covers]
          rfl

end Forest

end ContainerPreview
