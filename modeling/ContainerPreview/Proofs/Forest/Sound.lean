import ContainerPreview.Forest.Walk
import Mathlib.Data.List.Nodup

/-!
# Sound forests

In a sound forest the children of a container are distinct nodes in use that have it as
their parent.  Edits are taken apart into the steps that change the children of a
container, taking one out and putting some in, and a step leaves a sound forest sound.

A node that an edit has taken, but not put in because it failed, has a parent among
whose children it is not.  Such a node can never be put in anywhere again, so it does no
harm.
-/

namespace ContainerPreview

/-! ## What an edit does -/

namespace Edit

variable {α β : Type}

@[simp]
theorem apply_pure (value : α) (forest : Forest) :
    (pure value : Edit α).apply forest = (.ok value, forest) :=
  rfl

@[simp]
theorem apply_get (forest : Forest) : (get : Edit Forest).apply forest = (.ok forest, forest) :=
  rfl

@[simp]
theorem apply_change (id : NodeId) (change : Cell → Cell) (forest : Forest) :
    (Edit.change id change).apply forest = (.ok (), forest.update id change) :=
  rfl

theorem apply_bind (edit : Edit α) (next : α → Edit β) (forest : Forest) :
    (edit >>= next).apply forest =
      match edit.apply forest with
      | (.ok value, changed) => (next value).apply changed
      | (.error error, changed) => (.error error, changed) := by
  simp only [Edit.apply, ExceptT.run_bind, StateT.run_bind]
  rcases (ExceptT.run edit).run forest with ⟨_ | value, changed⟩ <;> rfl

@[simp]
theorem apply_ask (question : Forest → Except EditError α) (forest : Forest) :
    (Edit.ask question).apply forest = (question forest, forest) := by
  rw [Edit.ask, apply_bind, apply_get]
  dsimp only
  cases question forest <;> rfl

end Edit

namespace Forest

variable {forest : Forest} {container other child id key : Nat}

theorem cell_update (forest : Forest) (id other : NodeId) (change : Cell → Cell) :
    (forest.update id change).cell other =
      if other = id ∧ id < forest.size then change (forest.cell other) else forest.cell other := by
  by_cases same : other = id
  · subst same
    by_cases inUse : other < forest.size
    · simp [inUse, cell_update_self inUse]
    · simp only [inUse, and_false, if_false]
      simp only [size] at inUse
      simp [update, cell, inUse]
  · simp [same, cell_update_of_ne same]

theorem cell_add (forest : Forest) (cell : Cell) (id : NodeId) :
    (forest.add cell).cell id = if id = forest.size then cell else forest.cell id := by
  simp only [add, Forest.cell, Array.getD_eq_getD_getElem?, Array.getElem?_push, size]
  split <;> rfl

theorem cell_add_self (forest : Forest) (cell : Cell) :
    (forest.add cell).cell forest.size = cell := by
  rw [cell_add, if_pos rfl]

theorem cell_add_of_lt (inUse : id < forest.size) (cell : Cell) :
    (forest.add cell).cell id = forest.cell id := by
  rw [cell_add, if_neg (Nat.ne_of_lt inUse)]

/-- The children of a number that is not in use. -/
theorem children_of_size_le (unused : forest.size ≤ id) : forest.children id = [] := by
  simp only [size] at unused
  simp [children, cell, unused]

theorem inUse_of_mem_children (member : child ∈ forest.children container) :
    container < forest.size := by
  refine Nat.lt_of_not_le fun unused => ?_
  rw [children_of_size_le unused] at member
  cases member

theorem update_congr {change change' : Cell → Cell}
    (same : change (forest.cell id) = change' (forest.cell id)) :
    forest.update id change = forest.update id change' := by
  simp only [update, mk.injEq, and_true]
  refine Array.ext (by simp) fun index within _ => ?_
  rw [Array.getElem_modify, Array.getElem_modify]
  split
  · rename_i here
    subst here
    have inUse : id < forest.cells.size := by simpa using within
    simpa [cell, inUse] using same
  · rfl

theorem update_of_size_le (unused : forest.size ≤ id) (change : Cell → Cell) :
    forest.update id change = forest := by
  simp only [size] at unused
  rcases forest with ⟨cells, nextKey⟩
  simp only [update, mk.injEq, and_true]
  refine Array.ext (by simp) fun index _ within => ?_
  have different : id ≠ index := fun same => absurd (same ▸ within) (Nat.not_lt.mpr unused)
  rw [Array.getElem_modify, if_neg different]

/-- The index that a cursor is at, which is one below zero if the children up to it have all
been removed. -/
def cursor? (forest : Forest) (container : NodeId) (key : Nat) : Option Int :=
  ((forest.cell container).cursors.find? fun cursor => cursor.key == key).map Cursor.index

/-! ## Changes that leave fields alone -/

/-- A field that a change leaves alone is the same in every node. -/
theorem field_update {β : Type} (field : Cell → β) {change : Cell → Cell}
    (same : ∀ cell, field (change cell) = field cell) (forest : Forest) (id other : NodeId) :
    field ((forest.update id change).cell other) = field (forest.cell other) := by
  rw [cell_update]
  split
  · exact same _
  · rfl

theorem children_update_of_same (forest : Forest) (change : Cell → Cell)
    (same : ∀ cell, (change cell).children = cell.children) (id container : NodeId) :
    (forest.update id change).children container = forest.children container :=
  field_update Cell.children same forest id container

theorem parent?_update_of_same (forest : Forest) (change : Cell → Cell)
    (same : ∀ cell, (change cell).parent = cell.parent) (id other : NodeId) :
    (forest.update id change).parent? other = forest.parent? other :=
  field_update Cell.parent same forest id other

theorem cursor?_update_of_same (forest : Forest) (change : Cell → Cell)
    (same : ∀ cell, (change cell).cursors = cell.cursors) (id container : NodeId) (key : Nat) :
    (forest.update id change).cursor? container key = forest.cursor? container key := by
  rw [cursor?, field_update Cell.cursors same, cursor?]

theorem find?_moveCursors (move : Int → Int) (cell : Cell) (key : Nat) :
    (((cell.moveCursors move).cursors.find? fun cursor => cursor.key == key).map Cursor.index) =
      ((cell.cursors.find? fun cursor => cursor.key == key).map Cursor.index).map move := by
  simp [Cell.moveCursors, List.find?_map, Function.comp_def]

/-! ## Taking nodes out and putting them in -/

/-- The forest without the child at an index of a container. -/
def detach (forest : Forest) (container : NodeId) (index : Nat) (child : NodeId) : Forest :=
  (forest.update container fun cell =>
    (cell.erase index).moveCursors fun cursor =>
      if (index : Int) ≤ cursor then cursor - 1 else cursor).update child
        fun cell => { cell with parent := none }

/-- A field that is neither moved nor taken from a node is kept. -/
theorem field_detach {β : Type} (field : Cell → β)
    (ofErase : ∀ cell index move, field ((Cell.erase index cell).moveCursors move) = field cell)
    (ofParent : ∀ cell : Cell, field { cell with parent := none } = field cell)
    (forest : Forest) (container : NodeId) (index : Nat) (id other : NodeId) :
    field ((forest.detach container index id).cell other) = field (forest.cell other) := by
  rw [detach, field_update field ofParent, field_update field fun cell => ofErase cell index _]

/-- The forest with a container as the parent of a node. -/
def claim (forest : Forest) (container id : NodeId) : Forest :=
  forest.update id fun cell =>
    { cell with parent := some container,
                source := cell.source.or (forest.cell container).source }

/-- The forest with nodes put in at an index of a container and its cursors moved. -/
def put (forest : Forest) (container : NodeId) (index : Nat) (nodes : List NodeId)
    (move : Int → Int) : Forest :=
  forest.update container fun cell => (cell.splice index nodes).moveCursors move

section Fields

variable (forest : Forest) (container : NodeId) (index : Nat) (child : NodeId)
  (nodes : List NodeId) (move : Int → Int)

@[simp]
theorem size_detach : (forest.detach container index child).size = forest.size := by
  simp [detach]

@[simp]
theorem size_claim : (forest.claim container child).size = forest.size := by
  simp [claim]

@[simp]
theorem size_put : (forest.put container index nodes move).size = forest.size := by
  simp [put]

theorem children_detach (other : NodeId) :
    (forest.detach container index child).children other =
      if other = container then (forest.children container).eraseIdx index
      else forest.children other := by
  rw [detach, children_update_of_same _ _ (by simp)]
  by_cases same : other = container
  · subst same
    by_cases inUse : other < forest.size
    · simp [children, cell_update, inUse, Cell.moveCursors, Cell.erase]
    · have unused := children_of_size_le (Nat.le_of_not_lt inUse)
      simp only [children] at unused
      simp [children, cell_update, inUse, unused]
  · simp [children, cell_update, same]

theorem parent?_detach (inUse : child < forest.size) (other : NodeId) :
    (forest.detach container index child).parent? other =
      if other = child then none else forest.parent? other := by
  have kept : ∀ id, (forest.update container fun cell =>
      (cell.erase index).moveCursors fun cursor =>
        if (index : Int) ≤ cursor then cursor - 1 else cursor).parent? id = forest.parent? id :=
    parent?_update_of_same _ _ (by simp [Cell.erase, Cell.moveCursors]) container
  rw [← kept other]
  simp only [parent?, detach, cell_update _ child, size_update, inUse, and_true]
  split <;> rfl

@[simp]
theorem children_claim (other : NodeId) :
    (forest.claim container child).children other = forest.children other :=
  children_update_of_same _ _ (by simp) child other

theorem parent?_claim (inUse : child < forest.size) (other : NodeId) :
    (forest.claim container child).parent? other =
      if other = child then some container else forest.parent? other := by
  simp only [parent?, claim, cell_update, inUse, and_true]
  split <;> rfl

@[simp]
theorem parent?_put (other : NodeId) :
    (forest.put container index nodes move).parent? other = forest.parent? other :=
  parent?_update_of_same _ _ (by simp [Cell.splice, Cell.moveCursors]) container other

theorem children_put_self (inUse : container < forest.size) :
    (forest.put container index nodes move).children container =
      (forest.children container).take index ++ nodes ++
        (forest.children container).drop index := by
  simp [children, put, cell_update, inUse, Cell.splice, Cell.moveCursors]

theorem children_put_of_ne {other : NodeId} (different : other ≠ container) :
    (forest.put container index nodes move).children other = forest.children other := by
  simp [children, put, cell_update, different]

end Fields

/-! ## The steps of an edit -/

theorem apply_removeChild (forest : Forest) (container child : NodeId) :
    (removeChild container child).apply forest =
      match forest.indexOf container child with
      | .ok index => (.ok (), forest.detach container index child)
      | .error error => (.error error, forest) := by
  rw [removeChild, Edit.apply_bind, Edit.apply_ask]
  cases forest.indexOf container child <;> rfl

theorem apply_remove (forest : Forest) (id : NodeId) :
    (remove id).apply forest =
      match forest.parent? id with
      | none => (.ok (), forest)
      | some parent => (removeChild parent id).apply forest := by
  rw [remove, Edit.apply_bind, Edit.apply_get]
  dsimp only
  cases forest.parent? id <;> rfl

theorem apply_adoptOne (forest : Forest) (container id : NodeId) :
    (adoptOne container id).apply forest =
      if forest.mayAdopt container id then
        match (remove id).apply forest with
        | (.ok (), removed) => (.ok (), removed.claim container id)
        | (.error error, removed) => (.error error, removed)
      else (.error .ownSubtree, forest) := by
  rw [adoptOne, Edit.apply_bind, Edit.apply_get]
  dsimp only
  split
  · rw [Edit.apply_bind]
    rcases (remove id).apply forest with ⟨_ | _, removed⟩ <;> rfl
  · rfl

theorem apply_adopt_cons (forest : Forest) (container id : NodeId) (ids : List NodeId) :
    (adopt container (id :: ids)).apply forest =
      match (adoptOne container id).apply forest with
      | (.ok (), adopted) => (adopt container ids).apply adopted
      | (.error error, adopted) => (.error error, adopted) := by
  rw [adopt, Edit.apply_bind]
  rcases (adoptOne container id).apply forest with ⟨_ | _, adopted⟩ <;> rfl

theorem getElem?_of_indexOf {index : Nat} (isIndex : forest.indexOf container child = .ok index) :
    (forest.children container)[index]? = some child := by
  unfold indexOf at isIndex
  split at isIndex
  · rename_i found isFound
    cases isIndex
    rw [List.idxOf?, List.findIdx?_eq_some_iff_getElem] at isFound
    obtain ⟨within, isChild, -⟩ := isFound
    rw [List.getElem?_eq_getElem within]
    simpa using isChild
  · cases isIndex

/-- A node is taken out of where it is, if it is anywhere. -/
inductive TakesOut (id : NodeId) : Forest → Forest → Prop
  | alone {forest : Forest} (noParent : forest.parent? id = none) : TakesOut id forest forest
  | child {forest : Forest} {container : NodeId} {index : Nat}
      (isChild : (forest.children container)[index]? = some id) :
      TakesOut id forest (forest.detach container index id)

theorem apply_removeChild_cases (forest : Forest) (container child : NodeId) :
    (∃ error, (removeChild container child).apply forest = (.error error, forest)) ∨
      ∃ removed, TakesOut child forest removed ∧
        (removeChild container child).apply forest = (.ok (), removed) := by
  rw [apply_removeChild]
  cases isIndex : forest.indexOf container child with
  | error error => exact .inl ⟨error, rfl⟩
  | ok index => exact .inr ⟨_, .child (getElem?_of_indexOf isIndex), rfl⟩

theorem apply_remove_cases (forest : Forest) (id : NodeId) :
    (∃ error, (remove id).apply forest = (.error error, forest)) ∨
      ∃ removed, TakesOut id forest removed ∧ (remove id).apply forest = (.ok (), removed) := by
  rw [apply_remove]
  cases isParent : forest.parent? id with
  | none => exact .inr ⟨forest, .alone isParent, rfl⟩
  | some parent => exact apply_removeChild_cases forest parent id

theorem apply_adoptOne_cases (forest : Forest) (container id : NodeId) :
    (∃ error, (adoptOne container id).apply forest = (.error error, forest)) ∨
      ∃ removed, TakesOut id forest removed ∧
        (adoptOne container id).apply forest = (.ok (), removed.claim container id) := by
  rw [apply_adoptOne]
  split
  · rcases apply_remove_cases forest id with ⟨error, failed⟩ | ⟨removed, takesOut, isRemoved⟩
    · exact .inl ⟨error, by rw [failed]⟩
    · exact .inr ⟨removed, takesOut, by rw [isRemoved]⟩
  · exact .inl ⟨_, rfl⟩

/-! ## Soundness -/

/-- The children of every container are distinct, in use, and have it as their parent. -/
structure Sound (forest : Forest) : Prop where
  nodup : ∀ container, (forest.children container).Nodup
  parent : ∀ container, ∀ child ∈ forest.children container,
    forest.parent? child = some container
  inUse : ∀ container, ∀ child ∈ forest.children container, child < forest.size

theorem sound_iff : Sound forest ↔ ∀ container < forest.size, (forest.children container).Nodup ∧
    ∀ child ∈ forest.children container,
      forest.parent? child = some container ∧ child < forest.size := by
  constructor
  · intro sound container _
    exact ⟨sound.nodup container, fun child member =>
      ⟨sound.parent container child member, sound.inUse container child member⟩⟩
  · intro each
    refine ⟨fun container => ?_, fun container child member => ?_, fun container child member => ?_⟩
    · rcases Nat.lt_or_ge container forest.size with inUse | unused
      · exact (each container inUse).1
      · rw [children_of_size_le unused]
        exact List.nodup_nil
    · exact ((each container (inUse_of_mem_children member)).2 child member).1
    · exact ((each container (inUse_of_mem_children member)).2 child member).2

instance (forest : Forest) : Decidable (Sound forest) :=
  decidable_of_iff _ sound_iff.symm

/-- The nodes have been taken for a container and are not children of anything. -/
structure Pending (forest : Forest) (container : NodeId) (nodes : List NodeId) : Prop where
  nodup : nodes.Nodup
  inUse : ∀ node ∈ nodes, node < forest.size
  parent : ∀ node ∈ nodes, forest.parent? node = some container
  loose : ∀ node ∈ nodes, ∀ other, node ∉ forest.children other

theorem Sound.add (sound : Sound forest) (kind : Kind) (source : Option String) :
    Sound (forest.add { kind, source }) := by
  have same : ∀ container, (forest.add { kind, source }).children container =
      forest.children container := by
    intro container
    simp only [children, cell_add]
    split
    · rename_i isNew
      subst isNew
      exact (children_of_size_le (Nat.le_refl _)).symm
    · rfl
  refine ⟨fun container => ?_, fun container child member => ?_, fun container child member => ?_⟩
  · rw [same]
    exact sound.nodup container
  · rw [same] at member
    have old := Nat.ne_of_lt (sound.inUse container child member)
    simpa [parent?, cell_add, old] using sound.parent container child member
  · rw [same] at member
    rw [size_add]
    exact Nat.lt_succ_of_lt (sound.inUse container child member)

/-- A change of neither children nor parents. -/
theorem Sound.update (sound : Sound forest) (change : Cell → Cell)
    (children : ∀ cell, (change cell).children = cell.children)
    (parent : ∀ cell, (change cell).parent = cell.parent) (id : NodeId) :
    Sound (forest.update id change) where
  nodup other := by
    rw [children_update_of_same _ _ children]
    exact sound.nodup other
  parent other child member := by
    rw [children_update_of_same _ _ children] at member
    rw [parent?_update_of_same _ _ parent]
    exact sound.parent other child member
  inUse other child member := by
    rw [children_update_of_same _ _ children] at member
    rw [size_update]
    exact sound.inUse other child member

theorem TakesOut.size_eq {forest removed : Forest} (takesOut : TakesOut id forest removed) :
    removed.size = forest.size := by
  cases takesOut <;> simp

/-- What is left in a container after a child has been taken out. -/
theorem Sound.mem_children_detach (sound : Sound forest) {index : Nat}
    (isChild : (forest.children container)[index]? = some id) :
    child ∈ (forest.detach container index id).children other ↔
      child ≠ id ∧ child ∈ forest.children other := by
  have isMember := List.mem_of_getElem? isChild
  rw [children_detach]
  split
  · rename_i same
    subst same
    rw [List.mem_eraseIdx_iff_getElem]
    constructor
    · rintro ⟨position, within, different, rfl⟩
      refine ⟨fun same => different ?_, List.getElem_mem within⟩
      rw [List.getElem?_eq_some_iff] at isChild
      obtain ⟨indexWithin, isId⟩ := isChild
      exact (List.Nodup.getElem_inj_iff (sound.nodup other)).mp (same.trans isId.symm)
    · rintro ⟨different, member⟩
      obtain ⟨position, within, rfl⟩ := List.getElem_of_mem member
      refine ⟨position, within, ?_, rfl⟩
      rintro rfl
      rw [List.getElem?_eq_getElem within] at isChild
      exact different (Option.some.inj isChild)
  · rename_i different
    refine ⟨fun member => ⟨?_, member⟩, And.right⟩
    rintro rfl
    have parents := (sound.parent other child member).symm.trans
      (sound.parent container child isMember)
    exact different (Option.some.inj parents)

theorem Sound.takesOut {forest removed : Forest} (sound : Sound forest)
    (takesOut : TakesOut id forest removed) : Sound removed := by
  cases takesOut with
  | alone => exact sound
  | child isChild =>
      rename_i container index
      have inUse := sound.inUse container id (List.mem_of_getElem? isChild)
      refine ⟨fun other => ?_, fun other child member => ?_, fun other child member => ?_⟩
      · rw [children_detach]
        split
        · exact (sound.nodup container).eraseIdx index
        · exact sound.nodup other
      · rcases (sound.mem_children_detach isChild).mp member with ⟨different, member⟩
        rw [parent?_detach _ _ _ _ inUse, if_neg different]
        exact sound.parent other child member
      · rw [size_detach]
        exact sound.inUse other child ((sound.mem_children_detach isChild).mp member).2

/-- A node that has been taken out is nowhere. -/
theorem Sound.loose_of_takesOut {forest removed : Forest} (sound : Sound forest)
    (takesOut : TakesOut id forest removed) (other : NodeId) : id ∉ removed.children other := by
  intro member
  cases takesOut with
  | alone noParent =>
      rw [sound.parent other id member] at noParent
      cases noParent
  | child isChild => exact ((sound.mem_children_detach isChild).mp member).1 rfl

theorem Sound.claim (sound : Sound forest) (container : NodeId) (inUse : id < forest.size)
    (loose : ∀ other, id ∉ forest.children other) : Sound (forest.claim container id) := by
  refine ⟨fun other => ?_, fun other child member => ?_, fun other child member => ?_⟩
  · rw [children_claim]
    exact sound.nodup other
  · rw [children_claim] at member
    have different : child ≠ id := fun same => loose other (same ▸ member)
    rw [parent?_claim _ _ _ inUse, if_neg different]
    exact sound.parent other child member
  · rw [children_claim] at member
    rw [size_claim]
    exact sound.inUse other child member

theorem Sound.put (sound : Sound forest) {nodes : List NodeId}
    (pending : Pending forest container nodes) (index : Nat) (move : Int → Int) :
    Sound (forest.put container index nodes move) := by
  rcases Nat.lt_or_ge container forest.size with inUse | unused
  swap
  · rw [Forest.put, update_of_size_le unused]
    exact sound
  have permuted : ((forest.put container index nodes move).children container).Perm
      (nodes ++ forest.children container) := by
    rw [children_put_self _ _ _ _ _ inUse]
    refine (List.perm_append_comm.append_right _).trans ?_
    rw [List.append_assoc, List.take_append_drop]
  have isEither : ∀ other child, child ∈ (forest.put container index nodes move).children other →
      (other = container ∧ child ∈ nodes) ∨ child ∈ forest.children other := by
    intro other child member
    by_cases same : other = container
    · subst same
      rw [permuted.mem_iff, List.mem_append] at member
      exact member.imp_left fun isNew => ⟨rfl, isNew⟩
    · rw [children_put_of_ne _ _ _ _ _ same] at member
      exact .inr member
  refine ⟨fun other => ?_, fun other child member => ?_, fun other child member => ?_⟩
  · by_cases same : other = container
    · subst same
      rw [permuted.nodup_iff, List.nodup_append]
      refine ⟨pending.nodup, sound.nodup other, ?_⟩
      rintro node isNew _ isOld rfl
      exact pending.loose node isNew other isOld
    · rw [children_put_of_ne _ _ _ _ _ same]
      exact sound.nodup other
  · rw [parent?_put]
    rcases isEither other child member with ⟨rfl, isNew⟩ | isOld
    · exact pending.parent child isNew
    · exact sound.parent other child isOld
  · rw [size_put]
    rcases isEither other child member with ⟨rfl, isNew⟩ | isOld
    · exact pending.inUse child isNew
    · exact sound.inUse other child isOld

theorem Pending.nil (forest : Forest) (container : NodeId) : Pending forest container [] := by
  constructor <;> simp

/-- Taking one more node leaves those taken before where they are. -/
theorem Pending.claim {removed : Forest} {nodes : List NodeId}
    (pending : Pending forest container nodes) (sound : Sound forest) (inUse : id < forest.size)
    (takesOut : TakesOut id forest removed) :
    Pending (removed.claim container id) container (nodes ++ [id]) := by
  have isNew : id ∉ nodes := by
    intro isOld
    cases takesOut with
    | alone noParent =>
        rw [pending.parent id isOld] at noParent
        cases noParent
    | child isChild => exact pending.loose id isOld _ (List.mem_of_getElem? isChild)
  have loose := sound.loose_of_takesOut takesOut
  have inUse' : id < removed.size := takesOut.size_eq ▸ inUse
  have kept : ∀ node ∈ nodes, removed.parent? node = forest.parent? node ∧
      ∀ other, node ∉ removed.children other := by
    intro node member
    have different : node ≠ id := fun same => isNew (same ▸ member)
    cases takesOut with
    | alone => exact ⟨rfl, pending.loose node member⟩
    | child isChild =>
        refine ⟨by rw [parent?_detach _ _ _ _ inUse, if_neg different], fun other isThere => ?_⟩
        exact pending.loose node member other ((sound.mem_children_detach isChild).mp isThere).2
  refine ⟨?_, fun node member => ?_, fun node member => ?_, fun node member => ?_⟩
  · rw [List.nodup_append]
    refine ⟨pending.nodup, by simp, ?_⟩
    rintro node isOld _ isLast rfl
    exact isNew (List.mem_singleton.mp isLast ▸ isOld)
  · rw [size_claim, takesOut.size_eq]
    rcases List.mem_append.mp member with isOld | isLast
    · exact pending.inUse node isOld
    · rwa [List.mem_singleton.mp isLast]
  · rw [parent?_claim _ _ _ inUse']
    split
    · rfl
    · rename_i different
      rcases List.mem_append.mp member with isOld | isLast
      · rw [(kept node isOld).1, pending.parent node isOld]
      · exact absurd (List.mem_singleton.mp isLast) different
  · intro other
    rw [children_claim]
    rcases List.mem_append.mp member with isOld | isLast
    · exact (kept node isOld).2 other
    · rw [List.mem_singleton.mp isLast]
      exact loose other

end Forest

end ContainerPreview
