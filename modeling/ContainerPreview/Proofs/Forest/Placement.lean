import ContainerPreview.Proofs.Forest.Adoption

/-!
# Placing nodes

The edits that put nodes in say in advance whether they succeed: the container has to be able
to take the nodes, and the child that they are put in beside has to be there once they have
been taken.  Where they are put in is found among the children that are left, so it does not
matter where the nodes came from.
-/

namespace ContainerPreview

namespace Forest

variable {forest forest' taken removed : Forest} {container existing id other : NodeId}
  {nodes children detached : List NodeId}

/-! ## Putting in what has been taken -/

theorem Moved.put (took : Took forest taken container nodes) (inUse : container < forest.size)
    (index : Nat) (move : Int → Int) :
    Moved forest (taken.put container index nodes move) container nodes []
      ((forest.remaining container nodes).take index ++ nodes ++
        (forest.remaining container nodes).drop index) := by
  have kept : ∀ {β : Type} (field : Cell → β),
      (∀ cell, field ((Cell.splice index nodes cell).moveCursors move) = field cell) →
        ∀ other, field ((taken.put container index nodes move).cell other) =
          field (taken.cell other) := fun field same other => field_update field same taken _ other
  refine ⟨?_, took.nextKey, ?_, ?_, ?_, ?_, ?_, ?_, ?_⟩
  · rw [size_put, took.size]
  · rw [children_put_self _ _ _ _ _ (took.size ▸ inUse), took.children]
  · intro other isOther
    rw [children_put_of_ne _ _ _ _ _ isOther, took.others other isOther]
  · intro node
    rw [parent?_put, took.parent]
  · intro node
    rw [kept Cell.source (fun _ => rfl), took.source]
  · intro node
    rw [kept Cell.kind (fun _ => rfl), took.kind]
  · intro node
    rw [kept Cell.covers (fun _ => rfl), took.covers]
  · intro other isOther notHeld
    have same : (taken.put container index nodes move).cell other = taken.cell other :=
      cell_update_of_ne isOther _
    rw [same, took.cursors other isOther notHeld]

/-- A child that is none of the nodes is detached after they have been put in. -/
theorem Moved.takesOut (moved : Moved forest forest' container nodes [] children)
    (sound : Sound forest') (isOld : existing ∉ nodes) (isChild : existing ∈ children)
    (takesOut : TakesOut existing forest' removed) :
    Moved forest removed container nodes [existing] (children.filter (· ≠ existing)) := by
  have notHere : ∀ other ≠ container, existing ∉ forest'.children other := by
    intro other isOther isHere
    rw [← moved.children] at isChild
    have same := (sound.parent other existing isHere).symm.trans
      (sound.parent container existing isChild)
    exact isOther (Option.some.inj same)
  refine ⟨?_, takesOut.nextKey_eq.trans moved.nextKey, ?_, ?_, ?_, ?_, ?_, ?_, ?_⟩
  · rw [takesOut.size_eq, moved.size]
  · rw [takesOut.children_eq sound, moved.children]
  · intro other isOther
    rw [takesOut.children_eq sound, List.filter_eq_self.mpr, moved.others other isOther]
    exact fun child member => decide_eq_true fun same => notHere other isOther (same ▸ member)
  · intro node
    rw [takesOut.parent?_eq sound, moved.parent]
    by_cases same : node = existing <;> simp [same, isOld]
  · intro node
    rw [takesOut.source_eq, moved.source]
  · intro node
    rw [takesOut.kind_eq, moved.kind]
  · intro node
    rw [takesOut.covers_eq, moved.covers]
  · intro other isOther notHeld
    rw [takesOut.cursors_eq (notHere other isOther), moved.cursors other isOther notHeld]

/-! ## Places -/

theorem eq_append_of_getElem? {list : List NodeId} {index : Nat} (isHere : list[index]? = some id) :
    list = list.take index ++ id :: list.drop (index + 1) ∧
      list.drop index = id :: list.drop (index + 1) ∧
      list.take (index + 1) = list.take index ++ [id] := by
  obtain ⟨within, rfl⟩ := List.getElem?_eq_some_iff.mp isHere
  have isDrop := List.drop_eq_getElem_cons within
  refine ⟨?_, isDrop, List.take_succ_eq_append_getElem within⟩
  rw [← isDrop, List.take_append_drop]

/-- A child that is none of the nodes is found once these have been taken. -/
theorem Took.exists_indexOf (took : Took forest taken container nodes)
    (isThere : existing ∈ forest.children container ∧ existing ∉ nodes) :
    ∃ index, taken.indexOf container existing = .ok index ∧
      (forest.remaining container nodes)[index]? = some existing := by
  have member : existing ∈ taken.children container := by
    rw [took.children]
    exact mem_remaining.mpr isThere
  obtain ⟨index, isIndex⟩ := Forest.exists_indexOf member
  exact ⟨index, isIndex, took.children ▸ getElem?_of_indexOf isIndex⟩

theorem Took.indexOf_fails (took : Took forest taken container nodes)
    (notThere : ¬ (existing ∈ forest.children container ∧ existing ∉ nodes)) :
    ∃ error, taken.indexOf container existing = .error error ∧ error.isValueError := by
  refine ⟨_, indexOf_of_not_mem fun member => notThere ?_, rfl⟩
  rw [took.children] at member
  exact mem_remaining.mp member

/-- An edit that takes nodes and puts them in succeeds if the container may take them and the
place is found among the children that are left. -/
theorem Places.succeedsIf {edit : Edit Unit} {place : Forest → Except EditError (Nat × (Int → Int))}
    (places : Places edit container nodes place) (linked : WellLinked forest)
    (isContainer : (forest.cell container).kind.isContainer)
    (inUse : ∀ node ∈ container :: nodes, node < forest.size) {fits : Prop}
    {describes : Forest → Prop}
    (finds : ∀ taken, Took forest taken container nodes → fits → ∃ index move,
      place taken = .ok (index, move) ∧ describes (taken.put container index nodes move))
    (misses : ∀ taken, Took forest taken container nodes → ¬ fits →
      ∃ error, place taken = .error error ∧ error.isValueError) :
    SucceedsIf (fits ∧ MayTake forest container nodes) describes (edit.apply forest) := by
  obtain ⟨containerInUse, nodesInUse⟩ := List.forall_mem_cons.mp inUse
  obtain ⟨succeeds, fails⟩ := (Took.refl forest container).adopt (linked.taking container)
    ⟨List.nodup_nil, List.forall_mem_nil _⟩ isContainer nodesInUse
  rw [List.nil_append] at succeeds fails
  rw [places forest]
  by_cases may : MayTake forest container nodes
  · obtain ⟨taken, isTaken, took, -⟩ := succeeds may
    rw [isTaken]
    dsimp only
    by_cases isFit : fits
    · obtain ⟨index, move, isPlace, described⟩ := finds taken took isFit
      rw [isPlace]
      exact .success ⟨isFit, may⟩ described
    · obtain ⟨error, isPlace, isError⟩ := misses taken took isFit
      rw [isPlace]
      exact .failure (fun both => isFit both.1) isError
  · obtain ⟨error, taken, isTaken, isError⟩ := fails may
    rw [isTaken]
    exact .failure (fun both => may both.2) isError

/-- The nodes stand as one block at the end of the container. -/
def PlacedLast (forest forest' : Forest) (container : NodeId) (nodes : List NodeId) : Prop :=
  Moved forest forest' container nodes [] (forest.remaining container nodes ++ nodes)

/-- The nodes stand as one block at the start of the container. -/
def PlacedFirst (forest forest' : Forest) (container : NodeId) (nodes : List NodeId) : Prop :=
  Moved forest forest' container nodes [] (nodes ++ forest.remaining container nodes)

/-- The nodes stand as one block right before a child of the container. -/
def PlacedBefore (forest forest' : Forest) (container existing : NodeId) (nodes : List NodeId) :
    Prop :=
  ∃ front back, forest.remaining container nodes = front ++ existing :: back ∧
    Moved forest forest' container nodes [] (front ++ (nodes ++ existing :: back))

/-- The nodes stand as one block right after a child of the container. -/
def PlacedAfter (forest forest' : Forest) (container existing : NodeId) (nodes : List NodeId) :
    Prop :=
  ∃ front back, forest.remaining container nodes = front ++ existing :: back ∧
    Moved forest forest' container nodes [] (front ++ existing :: (nodes ++ back))

/-- The nodes stand as one block where a child of the container stood, which is detached. -/
def PlacedInstead (forest forest' : Forest) (container existing : NodeId) (nodes : List NodeId) :
    Prop :=
  ∃ front back, forest.remaining container nodes = front ++ existing :: back ∧
    Moved forest forest' container nodes [existing] (front ++ (nodes ++ back))

section Container

variable (linked : WellLinked forest) (isContainer : (forest.cell container).kind.isContainer)
  (inUse : ∀ node ∈ container :: nodes, node < forest.size)

include linked isContainer inUse

theorem append_succeedsIf :
    SucceedsIf (MayTake forest container nodes) (PlacedLast forest · container nodes)
      ((append container nodes).apply forest) := by
  have containerInUse := (List.forall_mem_cons.mp inUse).1
  have succeeds : SucceedsIf (True ∧ MayTake forest container nodes)
      (PlacedLast forest · container nodes) ((append container nodes).apply forest) := by
    refine (places_append container nodes).succeedsIf linked isContainer inUse
      (fun taken took _ => ⟨_, _, rfl, ?_⟩) fun _ _ noFit => absurd trivial noFit
    have moved := Moved.put took containerInUse (taken.children container).length id
    rw [took.children, List.take_length, List.drop_length, List.append_nil] at moved
    rwa [took.children]
  exact succeeds.congr (iff_of_eq (true_and _)).symm fun _ described => described

theorem prepend_succeedsIf :
    SucceedsIf (MayTake forest container nodes) (PlacedFirst forest · container nodes)
      ((prepend container nodes).apply forest) := by
  have containerInUse := (List.forall_mem_cons.mp inUse).1
  have succeeds : SucceedsIf (True ∧ MayTake forest container nodes)
      (PlacedFirst forest · container nodes) ((prepend container nodes).apply forest) := by
    refine (places_prepend container nodes).succeedsIf linked isContainer inUse
      (fun taken took _ => ⟨_, _, rfl, ?_⟩) fun _ _ noFit => absurd trivial noFit
    have moved := Moved.put took containerInUse 0 (· + nodes.length)
    rwa [List.take_zero, List.nil_append, List.drop_zero] at moved
  exact succeeds.congr (iff_of_eq (true_and _)).symm fun _ described => described

theorem insertBefore_succeedsIf (existing : NodeId) :
    SucceedsIf ((existing ∈ forest.children container ∧ existing ∉ nodes) ∧
        MayTake forest container nodes)
      (PlacedBefore forest · container existing nodes)
      ((insertBefore container existing nodes).apply forest) := by
  have containerInUse := (List.forall_mem_cons.mp inUse).1
  refine (places_insertBefore container existing nodes).succeedsIf linked isContainer inUse
    (fun taken took isThere => ?_) fun taken took notThere => ?_
  · obtain ⟨index, isIndex, isHere⟩ := took.exists_indexOf isThere
    obtain ⟨isList, isBack, -⟩ := eq_append_of_getElem? isHere
    refine ⟨index, _, by rw [isIndex]; rfl, _, _, isList, ?_⟩
    have moved := Moved.put took containerInUse index fun cursor =>
      if (index : Int) ≤ cursor then cursor + nodes.length else cursor
    rwa [isBack, List.append_assoc] at moved
  · obtain ⟨error, isError, isOther⟩ := took.indexOf_fails notThere
    exact ⟨error, by rw [isError]; rfl, isOther⟩

theorem insertAfter_succeedsIf (existing : NodeId) :
    SucceedsIf ((existing ∈ forest.children container ∧ existing ∉ nodes) ∧
        MayTake forest container nodes)
      (PlacedAfter forest · container existing nodes)
      ((insertAfter container existing nodes).apply forest) := by
  have containerInUse := (List.forall_mem_cons.mp inUse).1
  refine (places_insertAfter container existing nodes).succeedsIf linked isContainer inUse
    (fun taken took isThere => ?_) fun taken took notThere => ?_
  · obtain ⟨index, isIndex, isHere⟩ := took.exists_indexOf isThere
    obtain ⟨isList, -, isFront⟩ := eq_append_of_getElem? isHere
    refine ⟨index + 1, _, by rw [isIndex]; rfl, _, _, isList, ?_⟩
    have moved := Moved.put took containerInUse (index + 1) fun cursor =>
      if (index : Int) < cursor then cursor + nodes.length else cursor
    rwa [isFront, List.append_assoc, List.append_assoc, List.singleton_append] at moved
  · obtain ⟨error, isError, isOther⟩ := took.indexOf_fails notThere
    exact ⟨error, by rw [isError]; rfl, isOther⟩

/-- The nodes are put in before the child, and then the child is taken out from behind them. -/
theorem insertBefore_removeChild_succeedsIf (existing : NodeId) :
    SucceedsIf ((existing ∈ forest.children container ∧ existing ∉ nodes) ∧
        MayTake forest container nodes)
      (PlacedInstead forest · container existing nodes)
      ((insertBefore container existing nodes >>= fun _ => removeChild container existing).apply
        forest) := by
  obtain ⟨succeeds, fails⟩ := insertBefore_succeedsIf linked isContainer inUse existing
  rw [Edit.apply_bind]
  by_cases allowed : (existing ∈ forest.children container ∧ existing ∉ nodes) ∧
      MayTake forest container nodes
  · obtain ⟨placed, isPlaced, front, back, isList, moved⟩ := succeeds allowed
    have sound : Sound placed := (linked.places (places_insertBefore container existing nodes)
      isContainer inUse isPlaced).1.sound
    have isChild : existing ∈ placed.children container := by
      rw [moved.children]
      simp
    obtain ⟨index, isIndex⟩ := Forest.exists_indexOf isChild
    have takesOut := TakesOut.child (getElem?_of_indexOf isIndex)
    have moved' := moved.takesOut sound allowed.1.2 (moved.children ▸ isChild) takesOut
    have nodup := sound.nodup container
    rw [moved.children, ← List.append_assoc] at nodup
    -- the child stands only once among the new children, between the two parts that stay
    have notElsewhere : existing ∉ front ++ nodes ∧ existing ∉ back := by
      obtain ⟨-, isBack, isApart⟩ := List.nodup_append.mp nodup
      exact ⟨fun isHere => isApart existing isHere existing List.mem_cons_self rfl,
        (List.nodup_cons.mp isBack).1⟩
    have isLeft : (front ++ (nodes ++ existing :: back)).filter (· ≠ existing) =
        front ++ (nodes ++ back) := by
      have kept : ∀ list : List NodeId, existing ∉ list → list.filter (· ≠ existing) = list :=
        fun list notHere => List.filter_eq_self.mpr fun child member =>
          decide_eq_true fun same => notHere (same ▸ member)
      rw [← List.append_assoc, List.filter_append, kept _ notElsewhere.1,
        List.filter_cons_of_neg (by simp), kept _ notElsewhere.2, List.append_assoc]
    rw [isPlaced]
    dsimp only
    rw [apply_removeChild, isIndex]
    rw [isLeft] at moved'
    exact .success allowed ⟨front, back, isList, moved'⟩
  · obtain ⟨error, failed, isFailed, isError⟩ := fails allowed
    rw [isFailed]
    exact .failure allowed isError

end Container

/-! ## Places beside a node -/

/-- An edit beside a node is one of its parent, and fails without a parent. -/
theorem requireParent_succeedsIf (linked : WellLinked forest)
    (nodesInUse : ∀ node ∈ nodes, node < forest.size) {next : NodeId → Edit Unit}
    {describes : NodeId → Forest → Prop}
    (succeeds : ∀ parent, (forest.cell parent).kind.isContainer →
      (∀ node ∈ parent :: nodes, node < forest.size) →
        SucceedsIf ((id ∈ forest.children parent ∧ id ∉ nodes) ∧ MayTake forest parent nodes)
          (describes parent) ((next parent).apply forest)) :
    SucceedsIf (∃ parent, forest.parent? id = some parent ∧ id ∉ nodes ∧
        MayTake forest parent nodes)
      (fun forest' => ∃ parent, forest.parent? id = some parent ∧ describes parent forest')
      ((requireParent id >>= next).apply forest) := by
  rw [apply_requireParent_bind]
  cases isParent : forest.parent? id with
  | none => exact .failure (fun ⟨parent, isSome, _⟩ => nomatch isSome) rfl
  | some parent =>
      have member := (linked.mem_children_iff parent id).mpr isParent
      refine (succeeds parent (linked.isContainer parent id member)
        (List.forall_mem_cons.mpr ⟨inUse_of_mem_children member, nodesInUse⟩)).congr ?_
        fun forest' described => ⟨parent, rfl, described⟩
      constructor
      · rintro ⟨other, isOther, isOld, may⟩
        obtain rfl : parent = other := Option.some.inj isOther
        exact ⟨⟨member, isOld⟩, may⟩
      · rintro ⟨⟨-, isOld⟩, may⟩
        exact ⟨parent, rfl, isOld, may⟩

/-! ## All placing edits -/

/-- Every edit that puts nodes in succeeds exactly if the container may take them and the child
beside which they go is one of its children and none of them; otherwise it fails.  If it
succeeds, the nodes stand in the container as one block in the order given, and nothing else
has changed but what taking them changes. -/
theorem placing_succeedsIf (linked : WellLinked forest)
    (nodesInUse : ∀ node ∈ nodes, node < forest.size) :
    (∀ container < forest.size, (forest.cell container).kind.isContainer →
      SucceedsIf (MayTake forest container nodes) (PlacedLast forest · container nodes)
          ((append container nodes).apply forest) ∧
        SucceedsIf (MayTake forest container nodes) (PlacedFirst forest · container nodes)
          ((prepend container nodes).apply forest) ∧
        ∀ existing,
          let allowed := (existing ∈ forest.children container ∧ existing ∉ nodes) ∧
            MayTake forest container nodes
          SucceedsIf allowed (PlacedBefore forest · container existing nodes)
              ((insertBefore container existing nodes).apply forest) ∧
            SucceedsIf allowed (PlacedAfter forest · container existing nodes)
              ((insertAfter container existing nodes).apply forest)) ∧
      ∀ existing,
        let allowed := ∃ parent, forest.parent? existing = some parent ∧ existing ∉ nodes ∧
          MayTake forest parent nodes
        SucceedsIf allowed
            (fun forest' => ∃ parent, forest.parent? existing = some parent ∧
              PlacedBefore forest forest' parent existing nodes)
            ((before existing nodes).apply forest) ∧
          SucceedsIf allowed
            (fun forest' => ∃ parent, forest.parent? existing = some parent ∧
              PlacedAfter forest forest' parent existing nodes)
            ((after existing nodes).apply forest) ∧
          SucceedsIf allowed
            (fun forest' => ∃ parent, forest.parent? existing = some parent ∧
              PlacedInstead forest forest' parent existing nodes)
            ((replaceWith existing nodes).apply forest) := by
  constructor
  · intro container containerInUse isContainer
    have inUse : ∀ node ∈ container :: nodes, node < forest.size :=
      List.forall_mem_cons.mpr ⟨containerInUse, nodesInUse⟩
    exact ⟨append_succeedsIf linked isContainer inUse, prepend_succeedsIf linked isContainer inUse,
      fun existing => ⟨insertBefore_succeedsIf linked isContainer inUse existing,
        insertAfter_succeedsIf linked isContainer inUse existing⟩⟩
  · intro existing
    exact ⟨requireParent_succeedsIf linked nodesInUse fun parent isContainer inUse =>
        insertBefore_succeedsIf linked isContainer inUse existing,
      requireParent_succeedsIf linked nodesInUse fun parent isContainer inUse =>
        insertAfter_succeedsIf linked isContainer inUse existing,
      requireParent_succeedsIf linked nodesInUse fun parent isContainer inUse =>
        insertBefore_removeChild_succeedsIf linked isContainer inUse existing⟩

/-- A declaration of a rule and the rule before it go in front of the other declaration. -/
theorem placing_succeedsIf_copiedForest :
    (WellLinked copiedForest ∧ ∀ node ∈ [3, 4], node < copiedForest.size) ∧
      MayTake copiedForest 2 [3, 4] ∧
      ∃ forest', (insertBefore 2 1 [3, 4]).apply copiedForest = (.ok (), forest') ∧
        PlacedBefore copiedForest forest' 2 1 [3, 4] := by
  have linked : WellLinked copiedForest :=
    of_after? (fun _ linked allowed done => linked.act allowed done) wellLinked_empty
      (show after? copiedActions {} = some copiedForest by rfl)
  have nodesInUse : ∀ node ∈ [3, 4], node < copiedForest.size := by decide +kernel
  have may : MayTake copiedForest 2 [3, 4] := by
    refine ⟨by decide, fun node member => (linked.taking 2).mayAdopt_iff.mp ?_⟩
    have mayAdopt : ∀ node ∈ [3, 4], copiedForest.mayAdopt 2 node := by decide +kernel
    exact mayAdopt node member
  have succeeds := ((placing_succeedsIf linked nodesInUse).1 2 (by decide +kernel)
    (by decide +kernel)).2.2 1
  exact ⟨⟨linked, nodesInUse⟩, may, succeeds.1.1 ⟨by decide +kernel, may⟩⟩

end Forest

end ContainerPreview
