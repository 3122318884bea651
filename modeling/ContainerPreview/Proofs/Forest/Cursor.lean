import ContainerPreview.Proofs.Forest.Sound

/-!
# The two sides of a cursor

A cursor divides the children of a container: those up to its index are behind it, the
others are ahead of it.  Whatever an edit takes out or puts in, it changes one of the two
sides and leaves the other one as it is, because the cursor is moved along.
-/

namespace ContainerPreview

namespace Forest

/-! ## Sides -/

/-- A cursor has these children of its container behind it, the one that it is at
included, and these ahead of it. -/
structure Divides (forest : Forest) (container : NodeId) (key : Nat)
    (behind ahead : List NodeId) : Prop where
  children : forest.children container = behind ++ ahead
  cursor : forest.cursor? container key = some ((behind.length : Int) - 1)
  inUse : container < forest.size
  older : key < forest.nextKey

/-- One child more or less, or some new ones, on one side of a cursor. -/
inductive Slides : List NodeId → List NodeId → List NodeId → List NodeId → Prop
  | stay (behind ahead : List NodeId) : Slides behind ahead behind ahead
  | outBehind (before after ahead : List NodeId) (child : NodeId) :
      Slides (before ++ child :: after) ahead (before ++ after) ahead
  | outAhead (behind before after : List NodeId) (child : NodeId) :
      Slides behind (before ++ child :: after) behind (before ++ after)
  | inBehind (before after ahead nodes : List NodeId)
      (new : ∀ node ∈ nodes, node ∉ before ++ after ++ ahead) :
      Slides (before ++ after) ahead (before ++ nodes ++ after) ahead
  | inAhead (behind before after nodes : List NodeId)
      (new : ∀ node ∈ nodes, node ∉ behind ++ (before ++ after)) :
      Slides behind (before ++ after) behind (before ++ nodes ++ after)

variable {forest changed : Forest} {container other id key : Nat} {behind ahead : List NodeId}

/-- An edit that leaves the children and the cursors of a container alone. -/
theorem Divides.of_same (divides : Divides forest container key behind ahead)
    (children : changed.children container = forest.children container)
    (cursor : changed.cursor? container key = forest.cursor? container key)
    (size : changed.size = forest.size) (nextKey : forest.nextKey ≤ changed.nextKey) :
    Divides changed container key behind ahead where
  children := children.trans divides.children
  cursor := cursor.trans divides.cursor
  inUse := size ▸ divides.inUse
  older := Nat.lt_of_lt_of_le divides.older nextKey

theorem Divides.claim (divides : Divides forest container key behind ahead) (other id : NodeId) :
    Divides (forest.claim other id) container key behind ahead :=
  divides.of_same (children_claim ..) (cursor?_update_of_same _ _ (by simp) ..) (size_claim ..)
    (Nat.le_refl _)

/-! ## Taking a child out -/

theorem cursor?_detach_self (inUse : container < forest.size) (index : Nat) (child : NodeId)
    (key : Nat) :
    (forest.detach container index child).cursor? container key =
      (forest.cursor? container key).map fun cursor =>
        if (index : Int) ≤ cursor then cursor - 1 else cursor := by
  rw [detach, cursor?_update_of_same _ _ (by simp)]
  simp only [cursor?, cell_update, inUse, and_self, if_true]
  exact find?_moveCursors _ _ _

theorem cursor?_detach_of_ne (different : other ≠ container) (index : Nat) (child : NodeId)
    (key : Nat) :
    (forest.detach container index child).cursor? other key = forest.cursor? other key := by
  rw [detach, cursor?_update_of_same _ _ (by simp)]
  simp [cursor?, cell_update, different]

theorem exists_split_of_getElem? {nodes : List NodeId} {index : Nat}
    (isNode : nodes[index]? = some id) :
    ∃ before after, nodes = before ++ id :: after ∧ before.length = index := by
  obtain ⟨within, rfl⟩ := List.getElem?_eq_some_iff.mp isNode
  refine ⟨nodes.take index, nodes.drop (index + 1), ?_,
    List.length_take_of_le (Nat.le_of_lt within)⟩
  rw [List.getElem_cons_drop, List.take_append_drop]

theorem Divides.detach_self (divides : Divides forest container key behind ahead) {index : Nat}
    (isChild : (forest.children container)[index]? = some id) :
    ∃ behind' ahead', Slides behind ahead behind' ahead' ∧
      Divides (forest.detach container index id) container key behind' ahead' := by
  have inUse := divides.inUse
  rw [divides.children] at isChild
  by_cases isBehind : index < behind.length
  · rw [List.getElem?_append_left isBehind] at isChild
    obtain ⟨before, after, rfl, rfl⟩ := exists_split_of_getElem? isChild
    refine ⟨before ++ after, ahead, .outBehind before after ahead id, ?_, ?_, ?_, divides.older⟩
    · rw [children_detach, if_pos rfl, divides.children]
      simp [List.eraseIdx_append_of_length_le]
    · rw [cursor?_detach_self inUse, divides.cursor, Option.map_some, if_pos (by omega)]
      simp only [List.length_append, List.length_cons, Option.some.injEq]
      omega
    · simpa using inUse
  · rw [List.getElem?_append_right (Nat.le_of_not_lt isBehind)] at isChild
    obtain ⟨before, after, rfl, isLength⟩ := exists_split_of_getElem? isChild
    refine ⟨behind, before ++ after, .outAhead behind before after id, ?_, ?_, ?_, divides.older⟩
    · rw [children_detach, if_pos rfl, divides.children,
        List.eraseIdx_append_of_length_le (Nat.le_of_not_lt isBehind),
        List.eraseIdx_append_of_length_le (Nat.le_of_eq isLength)]
      simp [isLength]
    · rw [cursor?_detach_self inUse, divides.cursor, Option.map_some, if_neg (by omega)]
    · simpa using inUse

theorem Divides.takesOut {removed : Forest} (divides : Divides forest container key behind ahead)
    (takesOut : TakesOut id forest removed) :
    ∃ behind' ahead', Slides behind ahead behind' ahead' ∧
      Divides removed container key behind' ahead' := by
  cases takesOut with
  | alone => exact ⟨behind, ahead, .stay behind ahead, divides⟩
  | child isChild =>
      rename_i holder index
      by_cases same : holder = container
      · subst same
        exact divides.detach_self isChild
      · refine ⟨behind, ahead, .stay behind ahead, divides.of_same ?_ ?_ (size_detach ..) ?_⟩
        · rw [children_detach, if_neg (Ne.symm same)]
        · exact cursor?_detach_of_ne (Ne.symm same) index id key
        · exact Nat.le_refl _

/-! ## Putting nodes in -/

theorem cursor?_put_self (inUse : container < forest.size) (index : Nat) (nodes : List NodeId)
    (move : Int → Int) (key : Nat) :
    (forest.put container index nodes move).cursor? container key =
      (forest.cursor? container key).map move := by
  simp only [cursor?, put, cell_update, inUse, and_self, if_true]
  exact find?_moveCursors _ _ _

theorem cursor?_put_of_ne (different : other ≠ container) (index : Nat) (nodes : List NodeId)
    (move : Int → Int) (key : Nat) :
    (forest.put container index nodes move).cursor? other key = forest.cursor? other key := by
  simp [cursor?, put, cell_update, different]

/-- A cursor is moved by a count of nodes if they are put in behind it, and not moved if
they are put in ahead of it. -/
def Follows (move : Int → Int) (index count behind : Nat) : Prop :=
  (index ≤ behind ∧ move (behind - 1) = behind - 1 + count) ∨
    (behind ≤ index ∧ move (behind - 1) = behind - 1)

theorem Divides.put_self (divides : Divides forest container key behind ahead) {index : Nat}
    {nodes : List NodeId} {move : Int → Int}
    (new : ∀ node ∈ nodes, node ∉ forest.children container)
    (follows : Follows move index nodes.length behind.length) :
    ∃ behind' ahead', Slides behind ahead behind' ahead' ∧
      Divides (forest.put container index nodes move) container key behind' ahead' := by
  have inUse := divides.inUse
  rw [divides.children] at new
  rcases follows with ⟨isBehind, moved⟩ | ⟨isAhead, moved⟩
  · refine ⟨behind.take index ++ nodes ++ behind.drop index, ahead, ?_, ?_, ?_, ?_, divides.older⟩
    · have slides := Slides.inBehind (behind.take index) (behind.drop index) ahead nodes
        (by simpa only [List.take_append_drop] using new)
      rwa [List.take_append_drop] at slides
    · rw [children_put_self _ _ _ _ _ inUse, divides.children,
        List.take_append_of_le_length isBehind, List.drop_append_of_le_length isBehind]
      simp
    · rw [cursor?_put_self inUse, divides.cursor, Option.map_some, moved]
      simp only [List.length_append, List.length_take, List.length_drop, Option.some.injEq]
      omega
    · simpa using inUse
  · obtain ⟨offset, rfl⟩ := Nat.exists_eq_add_of_le isAhead
    refine ⟨behind, ahead.take offset ++ nodes ++ ahead.drop offset, ?_, ?_, ?_, ?_, divides.older⟩
    · have slides := Slides.inAhead behind (ahead.take offset) (ahead.drop offset) nodes
        (by simpa only [List.take_append_drop] using new)
      rwa [List.take_append_drop] at slides
    · rw [children_put_self _ _ _ _ _ inUse, divides.children, List.take_length_add_append,
        List.drop_length_add_append]
      simp
    · rw [cursor?_put_self inUse, divides.cursor, Option.map_some, moved]
    · simpa using inUse

theorem Divides.put (divides : Divides forest container key behind ahead) {index : Nat}
    {nodes : List NodeId} {move : Int → Int} (pending : Pending forest other nodes)
    (follows : other = container → Follows move index nodes.length behind.length) :
    ∃ behind' ahead', Slides behind ahead behind' ahead' ∧
      Divides (forest.put other index nodes move) container key behind' ahead' := by
  by_cases same : other = container
  · subst same
    exact divides.put_self (fun node isNew => pending.loose node isNew other) (follows rfl)
  · refine ⟨behind, ahead, .stay behind ahead, divides.of_same ?_ ?_ (size_put ..) ?_⟩
    · exact children_put_of_ne _ _ _ _ _ (Ne.symm same)
    · exact cursor?_put_of_ne (Ne.symm same) index nodes move key
    · exact Nat.le_refl _

/-! ## Other cursors -/

/-- Advancing a cursor changes no key. -/
theorem find?_advanceCursor_eq_map (key key' : Nat) (cell : Cell) :
    (cell.advanceCursor key').cursors.find? (·.key == key) =
      (cell.cursors.find? (·.key == key)).map fun cursor =>
        if cursor.key == key' then { cursor with index := cursor.index + 1 } else cursor := by
  rw [Cell.advanceCursor, List.find?_map]
  congr 2
  funext cursor
  simp only [Function.comp_apply]
  split <;> rfl

section OtherCursors

variable {key' : Nat} (different : key' ≠ key) (cell : Cell)
include different

theorem find?_openCursor :
    (cell.openCursor key').cursors.find? (·.key == key) = cell.cursors.find? (·.key == key) := by
  simp [Cell.openCursor, different]

theorem find?_closeCursor :
    (cell.closeCursor key').cursors.find? (·.key == key) = cell.cursors.find? (·.key == key) := by
  simp only [Cell.closeCursor, List.find?_filter]
  congr 1
  funext cursor
  by_cases isKey : cursor.key = key <;> simp [isKey, Ne.symm different]

theorem find?_advanceCursor :
    (cell.advanceCursor key').cursors.find? (·.key == key) =
      cell.cursors.find? (·.key == key) := by
  rw [find?_advanceCursor_eq_map]
  cases found : cell.cursors.find? (·.key == key) with
  | none => rfl
  | some cursor =>
      have isKey : cursor.key = key := by simpa using List.find?_some found
      simp [isKey, Ne.symm different]

end OtherCursors

/-- A change of cursors other than the one that divides. -/
theorem Divides.update (divides : Divides forest container key behind ahead)
    (change : Cell → Cell) (children : ∀ cell, (change cell).children = cell.children)
    (cursors : ∀ cell : Cell,
      (change cell).cursors.find? (·.key == key) = cell.cursors.find? (·.key == key))
    (id : NodeId) : Divides (forest.update id change) container key behind ahead := by
  refine divides.of_same (children_update_of_same _ _ children id container) ?_ (size_update ..)
    (Nat.le_refl _)
  simp only [cursor?, cell_update]
  split
  · rw [cursors]
  · rfl

/-! ## What is left of the children -/

/-- Nodes that are children all the time stay on their side of the cursor, in their
order. -/
theorem Slides.filter_ahead {behind' ahead' : List NodeId}
    (slides : Slides behind ahead behind' ahead') (nodup : (behind ++ ahead).Nodup)
    {stays : NodeId → Bool} (before : ∀ node, stays node → node ∈ behind ++ ahead)
    (after : ∀ node, stays node → node ∈ behind' ++ ahead') :
    ahead'.filter stays = ahead.filter stays := by
  cases slides with
  | stay => rfl
  | outBehind => rfl
  | inBehind => rfl
  | outAhead _ first last child =>
      have isOut : stays child = false := by
        rw [Bool.eq_false_iff]
        intro isIn
        have member := after child isIn
        simp only [List.nodup_append, List.nodup_cons, List.mem_append, List.mem_cons]
          at nodup member
        grind
      simp [List.filter_append, isOut]
  | inAhead _ first last nodes new =>
      have areOut : nodes.filter stays = [] := by
        rw [List.filter_eq_nil_iff]
        intro node isNew isIn
        exact new node isNew (before node isIn)
      simp [List.filter_append, areOut]

end Forest

end ContainerPreview
