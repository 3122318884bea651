import ContainerPreview.Proofs.Forest.Clone
import ContainerPreview.Proofs.Worker.Turns

/-!
# The edits of a pass

Every edit that a pass makes succeeds, if it is made where the pass makes it: an attribute is
assigned to a rule or a declaration, and nodes that have just been made, and so stand nowhere, are
put into a block or beside one of its children.  No cursor of the block moves, since no walk is
further than at the child.
-/

namespace ContainerPreview

open Tagged

namespace Step

open Stage Forest

variable {stage : Stage} {holder : Entry} {parent : Option NodeId} {front back : List NodeId}
  {row left right added : List Tagged}

@[simp]
theorem apply_edit {α : Type} (edit : Edit α) (calls : Nat) (stage : Stage) :
    (Step.edit edit).apply calls stage =
      ((edit.apply stage.1).1, (edit.apply stage.1).2, stage.2) :=
  rfl

/-! ## Putting nodes in -/

section Insertion

variable {before after : List NodeId}

theorem map_id_tops (parent : Option NodeId) (row : List Tagged) :
    (row.map (Tagged.top parent)).map Entry.id = row.map Tagged.id := by
  simp [Function.comp_def]

/-- Trees that stand nowhere are not around the block that they are put into. -/
theorem mayTake_detached
    (holds : stage.Holds (holder.part front back row ++ entriesIn none added)) :
    MayTake stage.1 holder.id (added.map Tagged.id) := by
  have isWithin : ∀ node ∈ added.map Tagged.id, node ∈ idsOf added := fun node member =>
    (map_id_sublist_idsOf added).subset member
  have notHolder : holder.id ∉ idsOf added := by
    refine map_id_eq_idsOf none added ▸ holds.notMem_right ?_
    rw [Entry.map_id_part]
    exact List.mem_cons_self
  refine ⟨(map_id_sublist_idsOf added).nodup (map_id_eq_idsOf none added ▸ holds.right.nodup),
    fun node member => ⟨?_, fun above => ?_⟩⟩
  · rintro rfl
    exact notHolder (isWithin _ member)
  · exact notHolder (mem_idsOf_of_isAncestor holds.right (isWithin node member) above)

/-- Only the entry of the block and those of the tops change when trees are put in. -/
theorem reshapes_inserted {forest' : Forest} {move : Int → Int}
    (holds : stage.Holds (holder.withChildren (before ++ after) :: added.map (Tagged.top none)))
    (inserted : Inserted stage.1 forest' holder.id (added.map Tagged.id) before.length move)
    (stay : ∀ cursor ∈ holder.cell.cursors, move cursor.index = cursor.index) :
    Reshapes stage (forest', stage.2)
      (holder.withChildren (before ++ after) :: added.map (Tagged.top none))
      (holder.withChildren (before ++ (added.map Tagged.id ++ after)) ::
        (added.map (inherit holder.cell.source)).map (Tagged.top (some holder.id))) := by
  obtain ⟨linked, size, isHolder, areInserted, areOthers⟩ := inserted
  obtain ⟨holderIn, topsIn⟩ := List.forall_mem_cons.mp holds.isIn
  have topIn := List.forall_mem_map.mp topsIn
  have holderCell : stage.1.cell holder.id = (holder.withChildren (before ++ after)).cell :=
    holderIn.cell
  have sameIds : ∀ parent file,
      ((added.map (inherit file)).map (Tagged.top parent)).map Entry.id = added.map Tagged.id :=
    fun parent file => (map_id_tops parent _).trans (map_id_inherit file added)
  refine ⟨⟨linked, fun id member => size ▸ holds.inUse id member, ?_, ?_⟩, Nat.le_of_eq size.symm,
    fun id _ notHere => ?_, fun id member => .inl ?_⟩
  · refine List.forall_mem_cons.mpr ⟨⟨size ▸ holderIn.inUse, ?_, holderIn.settled⟩, ?_⟩
    · have areChildren : stage.1.children holder.id = before ++ after :=
        congrArg Cell.children holderCell
      have kept : (stage.1.cell holder.id).cursors.map
          (fun cursor => { cursor with index := move cursor.index }) = holder.cell.cursors := by
        rw [holderCell]
        exact (List.map_congr_left fun cursor member => by rw [stay cursor member]).trans
          (List.map_id' _)
      rw [kept, areChildren, List.take_left, List.drop_left, holderCell, List.append_assoc]
        at isHolder
      exact isHolder
    · rw [List.map_map]
      refine List.forall_mem_map.mpr fun tree member => ?_
      obtain ⟨inUse, oldCell, settled⟩ := topIn tree member
      have newCell := areInserted tree.id (List.mem_map_of_mem member)
      rw [id_top] at oldCell settled inUse
      rw [oldCell, holderCell] at newCell
      cases tree
      · exact ⟨size ▸ inUse, newCell, settled⟩
      · exact ⟨size ▸ inUse, newCell, settled⟩
  · have nodup := holds.nodup
    rw [List.map_cons, map_id_tops] at nodup
    rw [List.map_cons, sameIds]
    exact nodup
  · rw [List.map_cons, map_id_tops, List.mem_cons, not_or] at notHere
    exact ⟨areOthers id notHere.1 notHere.2, .rfl⟩
  · rw [List.map_cons, sameIds] at member
    rw [List.map_cons, map_id_tops]
    exact member

theorem coe_entriesIn (parent : Option NodeId) (row : List Tagged) :
    (entriesIn parent row : Multiset Entry) =
      ↑(row.map (Tagged.top parent)) + ↑(row.flatMap deeper) :=
  Multiset.coe_eq_coe.mpr (entriesIn_perm parent row)

/-- What putting trees into a block works on, apart from all else. -/
theorem part_detached_perm (holder : Entry) (front back : List NodeId)
    (left right added : List Tagged) :
    (holder.part front back (left ++ right) ++ entriesIn none added).Perm
      ((holder.withChildren (front ++ left.map Tagged.id ++ (right.map Tagged.id ++ back)) ::
          added.map (Tagged.top none)) ++
        (entriesIn (some holder.id) (left ++ right) ++ added.flatMap deeper)) := by
  have sameIds : front ++ (left ++ right).map Tagged.id ++ back =
      front ++ left.map Tagged.id ++ (right.map Tagged.id ++ back) := by
    simp
  rw [Entry.part, sameIds, List.cons_append, List.cons_append]
  refine .cons _ (perm_of_coe ?_)
  simp only [← Multiset.coe_add, coe_entriesIn none added]
  abel

/-- What putting trees into a block has worked on, with all else. -/
theorem part_inserted_perm (holder : Entry) (front back : List NodeId)
    (left right added : List Tagged) :
    ((holder.withChildren (front ++ left.map Tagged.id ++
            (added.map Tagged.id ++ (right.map Tagged.id ++ back))) ::
          (added.map (inherit holder.cell.source)).map (Tagged.top (some holder.id))) ++
        (entriesIn (some holder.id) (left ++ right) ++ added.flatMap deeper)).Perm
      (holder.part front back (left ++ added.map (inherit holder.cell.source) ++ right)) := by
  have sameIds : front ++
      (left ++ added.map (inherit holder.cell.source) ++ right).map Tagged.id ++ back =
        front ++ left.map Tagged.id ++ (added.map Tagged.id ++ (right.map Tagged.id ++ back)) := by
    simp [Function.comp_def]
  have sameDeeper : (added.map (inherit holder.cell.source)).flatMap deeper =
      added.flatMap deeper := by
    simp [List.flatMap_map]
  rw [Entry.part, sameIds, List.cons_append]
  refine .cons _ (perm_of_coe ?_)
  simp only [entriesIn_append, ← Multiset.coe_add, coe_entriesIn _ (added.map _), sameDeeper]
  abel

/-- Trees that stand nowhere are put between the children of a block. -/
theorem makes_places (left right : List Tagged) (move : Int → Int) {edit : Edit Unit}
    {place : Forest → Except EditError (Nat × (Int → Int))}
    (places : Places edit holder.id (added.map Tagged.id) place)
    (holds : stage.Holds (holder.part front back (left ++ right) ++ entriesIn none added))
    (isContainer : holder.cell.kind.isContainer)
    (isPlace : ∀ taken : Forest,
      taken.children holder.id = front ++ left.map Tagged.id ++ (right.map Tagged.id ++ back) →
        place taken = .ok ((front ++ left.map Tagged.id).length, move))
    (stay : ∀ cursor ∈ holder.cell.cursors, move cursor.index = cursor.index) :
    Makes (Step.edit edit) stage (holder.part front back (left ++ right) ++ entriesIn none added)
      fun _ after => after =
        holder.part front back (left ++ added.map (inherit holder.cell.source) ++ right) := by
  have isWhole := part_detached_perm holder front back left right added
  have holdsTops := (holds.perm isWhole).left
  obtain ⟨holderIn, topsIn⟩ := List.forall_mem_cons.mp holdsTops.isIn
  have topIn := List.forall_mem_map.mp topsIn
  have inUse : ∀ node ∈ holder.id :: added.map Tagged.id, node < stage.1.size :=
    List.forall_mem_cons.mpr ⟨holderIn.inUse, List.forall_mem_map.mpr fun tree member =>
      @id_top none tree ▸ (topIn tree member).inUse⟩
  have detached : ∀ node ∈ added.map Tagged.id, stage.1.parent? node = none := by
    refine List.forall_mem_map.mpr fun tree member => ?_
    have isTop := (topIn tree member).cell
    rw [id_top] at isTop
    rw [Forest.parent?, isTop]
    cases tree <;> rfl
  have holderCell : stage.1.cell holder.id = (holder.withChildren
      (front ++ left.map Tagged.id ++ (right.map Tagged.id ++ back))).cell :=
    holderIn.cell
  obtain ⟨forest', isDone, inserted⟩ := places.exists_inserted holds.linked
    (by rw [holderCell]; exact isContainer) inUse detached (mayTake_detached holds)
    (front ++ left.map Tagged.id).length fun taken same =>
      isPlace taken (same.trans (congrArg Cell.children holderCell))
  have isApplied : ∀ calls, (Step.edit edit).apply calls stage = (.ok (), forest', stage.2) :=
    fun calls => by rw [apply_edit, isDone]
  have reshapes := reshapes_inserted holdsTops inserted stay
  exact ⟨0, (), _, _, .of_forall isApplied,
    (reshapes.frame _ (holds.perm isWhole)).perm isWhole.symm
      (part_inserted_perm holder front back left right added), rfl⟩

/-- Trees that stand nowhere are put at the end of a block. -/
theorem makes_append (holds : stage.Holds (holder.part [] [] row ++ entriesIn none added))
    (isContainer : holder.cell.kind.isContainer) :
    Makes (Step.edit (append holder.id (added.map Tagged.id))) stage
      (holder.part [] [] row ++ entriesIn none added) fun _ after =>
        after = holder.part [] [] (row ++ added.map (inherit holder.cell.source)) := by
  have places := places_append holder.id (added.map Tagged.id)
  have makes := makes_places row [] _ places (by simpa using holds) isContainer
    (fun taken areChildren => by rw [areChildren]; simp; rfl) fun cursor _ => rfl
  simpa using makes

/-- Trees that stand nowhere are put at the start of a block. -/
theorem makes_prepend (holds : stage.Holds (holder.part [] [] row ++ entriesIn none added))
    (isContainer : holder.cell.kind.isContainer) (noCursors : holder.cell.cursors = []) :
    Makes (Step.edit (prepend holder.id (added.map Tagged.id))) stage
      (holder.part [] [] row ++ entriesIn none added) fun _ after =>
        after = holder.part [] [] (added.map (inherit holder.cell.source) ++ row) := by
  have places := places_prepend holder.id (added.map Tagged.id)
  have makes := makes_places [] row _ places (by simpa using holds) isContainer
    (fun _ _ => rfl) (by simp [noCursors])
  simpa using makes

theorem indexOf_eq {forest : Forest} {container id : NodeId}
    (areChildren : forest.children container = before ++ id :: after) (notBefore : id ∉ before) :
    forest.indexOf container id = .ok before.length := by
  have isIndex : (before ++ id :: after).idxOf? id = some before.length := by
    clear areChildren
    induction before with
    | nil => simp [List.idxOf?_cons]
    | cons other before inductionHypothesis =>
        obtain ⟨different, notBefore⟩ := not_or.mp (List.mem_cons.not.mp notBefore)
        simp [List.idxOf?_cons, Ne.symm different, inductionHypothesis notBefore]
  rw [indexOf, areChildren, isIndex]

/-- An edit beside a child is one of its parent. -/
theorem makes_beside {extra : List Entry} {tree : Tagged} {next : NodeId → Edit Unit}
    {post : Unit → List Entry → Prop}
    (holds : stage.Holds (holder.part front back [tree] ++ extra))
    (makes : tree.id ∉ front → Makes (Step.edit (next holder.id)) stage
      (holder.part front back [tree] ++ extra) post) :
    Makes (Step.edit (requireParent tree.id >>= next)) stage
      (holder.part front back [tree] ++ extra) post := by
  have isTop := (holds.left.isIn (tree.top (some holder.id))
    (List.mem_cons_of_mem _ (top_mem_entriesIn (List.mem_singleton_self tree)))).cell
  have isHolder := (holds.left.isIn _ List.mem_cons_self).cell
  have isParent : stage.1.parent? tree.id = some holder.id := by
    rw [id_top] at isTop
    rw [Forest.parent?, isTop]
    cases tree <;> rfl
  have notFront : tree.id ∉ front := by
    have nodup := holds.linked.nodup holder.id
    have areChildren : stage.1.children holder.id = front ++ tree.id :: back := by
      rw [Forest.children]
      exact (congrArg Cell.children isHolder).trans (by simp [Entry.withChildren])
    rw [areChildren] at nodup
    exact fun member => (List.nodup_append.mp nodup).2.2 _ member _ List.mem_cons_self rfl
  obtain ⟨_, value, stage', changed, ends, reshapes, isPost⟩ := makes notFront
  refine ⟨_, value, stage', changed, ends.congr fun calls => ?_, reshapes, isPost⟩
  rw [apply_edit, apply_requireParent_bind, isParent]
  rfl

/-- Trees that stand nowhere are put after a child, which no walk has passed. -/
theorem makes_after (tree : Tagged) (added : List Tagged)
    (holds : stage.Holds (holder.part front back [tree] ++ entriesIn none added))
    (isContainer : holder.cell.kind.isContainer)
    (cursors : ∀ cursor ∈ holder.cell.cursors, cursor.index ≤ front.length) :
    Makes (Step.edit (Forest.after tree.id (added.map Tagged.id))) stage
      (holder.part front back [tree] ++ entriesIn none added) fun _ after =>
        after = holder.part front back (tree :: added.map (inherit holder.cell.source)) := by
  refine makes_beside holds fun notFront => ?_
  have places := places_insertAfter holder.id tree.id (added.map Tagged.id)
  have makes := makes_places [tree] [] (fun cursor =>
      if (front.length : Int) < cursor then cursor + (added.map Tagged.id).length else cursor)
    places (by simpa using holds) isContainer (fun taken areChildren => by
      rw [indexOf_eq (by simpa using areChildren) notFront]
      simp [Except.map]) fun cursor member => by
      rw [if_neg (Int.not_lt.mpr (cursors cursor member))]
  simpa using makes

/-- Trees that stand nowhere are put before a child of a block that no walk is in. -/
theorem makes_before (tree : Tagged) (added : List Tagged)
    (holds : stage.Holds (holder.part front back [tree] ++ entriesIn none added))
    (isContainer : holder.cell.kind.isContainer) (noCursors : holder.cell.cursors = []) :
    Makes (Step.edit (Forest.before tree.id (added.map Tagged.id))) stage
      (holder.part front back [tree] ++ entriesIn none added) fun _ after =>
        after = holder.part front back (added.map (inherit holder.cell.source) ++ [tree]) := by
  refine makes_beside holds fun notFront => ?_
  have places := places_insertBefore holder.id tree.id (added.map Tagged.id)
  have makes := makes_places [] [tree] (fun cursor =>
      if (front.length : Int) ≤ cursor then cursor + (added.map Tagged.id).length else cursor)
    places (by simpa using holds) isContainer (fun taken areChildren => by
      rw [indexOf_eq (by simpa using areChildren) notFront]
      simp [Except.map]) (by simp [noCursors])
  simpa using makes

end Insertion

/-! ## Changing one node -/

/-- One entry changes, without its links. -/
theorem reshapes_update {entry : Entry} (holds : stage.Holds [entry]) (change : Cell → Cell)
    (sameChildren : ∀ cell, (change cell).children = cell.children)
    (sameParent : ∀ cell, (change cell).parent = cell.parent)
    (sameSort : (change entry.cell).kind.isContainer = entry.cell.kind.isContainer) :
    Reshapes stage (stage.1.update entry.id change, stage.2) [entry]
      [{ entry with cell := change entry.cell }] := by
  obtain ⟨inUse, isCell, settled⟩ := holds.isIn entry List.mem_cons_self
  refine ⟨⟨?_, ?_, List.forall_mem_singleton.mpr ⟨?_, ?_, settled⟩, List.nodup_singleton _⟩, ?_,
    fun id _ notHere => ⟨?_, .rfl⟩, fun id member => .inl member⟩
  · exact holds.linked.update entry.id change sameChildren sameParent (by rw [isCell, sameSort])
  · rw [size_update]
    exact holds.inUse
  · rw [size_update]
    exact inUse
  · rw [cell_update_self inUse, isCell]
  · rw [size_update]
  · exact cell_update_of_ne (fun same => notHere (List.mem_singleton.mpr same)) _

/-- A node becomes another one of its sort. -/
theorem reshapes_kind {entry : Entry} (holds : stage.Holds [entry]) (kind : Kind)
    (sameSort : kind.isContainer = entry.cell.kind.isContainer) :
    Reshapes stage (stage.1.update entry.id fun cell => { cell with kind }, stage.2) [entry]
      [{ entry with cell := { entry.cell with kind } }] :=
  reshapes_update holds (fun cell => { cell with kind }) (fun _ => rfl) (fun _ => rfl) sameSort

/-- The pass gets done with a node. -/
theorem reshapes_settle {entry : Entry} (holds : stage.Holds [entry]) :
    Reshapes stage (stage.1, entry.id :: stage.2) [entry] [{ entry with settled := true }] := by
  obtain ⟨inUse, isCell, -⟩ := holds.isIn entry List.mem_cons_self
  refine ⟨⟨holds.linked, List.forall_mem_cons.mpr ⟨inUse, holds.inUse⟩,
    List.forall_mem_singleton.mpr ⟨inUse, isCell, by simp⟩, List.nodup_singleton _⟩, Nat.le_refl _,
    fun id _ notHere => ⟨rfl, ?_⟩, fun id member => .inl member⟩
  have different : id ≠ entry.id := fun same => notHere (List.mem_singleton.mpr same)
  simp [different]

theorem apply_assign_selector {forest : Forest} {id : NodeId} {selector : String}
    (isRule : (forest.cell id).kind = .block (.rule selector)) (text : String) :
    (Forest.assign id "selector" (.text text)).apply forest =
      (.ok (), forest.update id fun cell => { cell with kind := .block (.rule text) }) := by
  have isSet : overwrite (forest.cell id).kindName (forest.cell id) "selector" (.text text) =
      .ok { forest.cell id with kind := .block (.rule text) } := by
    rw [overwrite, setAttribute, setField?, isRule]
    rfl
  rw [Forest.assign, if_neg (by simp), Edit.apply_bind, Edit.apply_get]
  dsimp only
  rw [isSet]
  exact congrArg (Prod.mk _) (update_congr rfl)

theorem apply_assign_value {forest : Forest} {id : NodeId} {declaration : Declaration}
    (isDeclaration : (forest.cell id).kind = .leaf (.declaration declaration)) (text : String) :
    (Forest.assign id "value" (.text text)).apply forest =
      (.ok (), forest.update id fun cell =>
        { cell with kind := .leaf (.declaration { declaration with value := text }) }) := by
  have isSet : overwrite (forest.cell id).kindName (forest.cell id) "value" (.text text) =
      .ok { forest.cell id with
        kind := .leaf (.declaration { declaration with value := text }) } := by
    rw [overwrite, setAttribute, setField?, isDeclaration]
    rfl
  rw [Forest.assign, if_neg (by simp), Edit.apply_bind, Edit.apply_get]
  dsimp only
  rw [isSet]
  exact congrArg (Prod.mk _) (update_congr rfl)

/-- What changes the entry of the top of a tree turns the tree. -/
theorem turns_top {step : Step Unit} {tree tree' : Tagged} {stage' : Stage}
    (holds : stage.Holds (tree.entries parent)) (sameDeeper : tree'.deeper = tree.deeper)
    (done : ∀ calls, step.apply calls stage = (.ok (), stage'))
    (reshapes : Reshapes stage stage' [tree.top parent] [tree'.top parent]) :
    Turns step stage (Tagged.entries parent) tree fun _ turned => turned = tree' := by
  have makes : Makes step stage [tree.top parent] fun _ after => after = [tree'.top parent] :=
    ⟨0, (), stage', _, .of_forall done, reshapes, rfl⟩
  refine Makes.within makes (.of_eq tree.entries_eq) holds ?_
  rintro _ _ rfl
  refine ⟨_, .of_eq ?_, tree', rfl, rfl⟩
  rw [Tagged.entries_eq, sameDeeper]
  rfl

section Block

variable {id : NodeId} {source : Option String} {settled : Bool} {children : List Tagged}

theorem holds_top {tree : Tagged} (holds : stage.Holds (tree.entries parent)) :
    stage.Holds [tree.top parent] := by
  rw [Tagged.entries_eq] at holds
  exact holds.head

/-- A rule gets another selector list. -/
theorem turns_selector {selector : String}
    (holds : stage.Holds
      (Tagged.entries parent (.block id source (.rule selector) settled children)))
    (text : String) :
    Turns (assign id "selector" text) stage (Tagged.entries parent)
      (.block id source (.rule selector) settled children) fun _ turned =>
        turned = .block id source (.rule text) settled children := by
  have holdsTop := holds_top holds
  have isRule : (stage.1.cell id).kind = .block (.rule selector) :=
    congrArg Cell.kind (holdsTop.isIn _ (List.mem_singleton_self _)).cell
  refine turns_top holds rfl (fun calls => ?_) (reshapes_kind holdsTop (.block (.rule text)) rfl)
  rw [assign, apply_edit, apply_assign_selector isRule]
  rfl

/-- The pass gets done with a block. -/
theorem turns_settle {head : Head}
    (holds : stage.Holds (Tagged.entries parent (.block id source head settled children))) :
    Turns (settle id) stage (Tagged.entries parent) (.block id source head settled children)
      fun _ turned => turned = .block id source head true children :=
  turns_top holds rfl (fun _ => rfl) (reshapes_settle (holds_top holds))

/-- A declaration gets another value. -/
theorem turns_value {declaration : Declaration}
    (holds : stage.Holds (Tagged.entries parent (.leaf id source (.declaration declaration))))
    (text : String) :
    Turns (assign id "value" text) stage (Tagged.entries parent)
      (.leaf id source (.declaration declaration)) fun _ turned =>
        turned = .leaf id source (.declaration { declaration with value := text }) := by
  have holdsTop := holds_top holds
  have isDeclaration : (stage.1.cell id).kind = .leaf (.declaration declaration) :=
    congrArg Cell.kind (holdsTop.isIn _ (List.mem_singleton_self _)).cell
  refine turns_top holds rfl (fun calls => ?_) (reshapes_kind holdsTop
    (.leaf (.declaration { declaration with value := text })) rfl)
  rw [assign, apply_edit, apply_assign_value isDeclaration]
  rfl

end Block

/-! ## Making nodes -/

/-- A forest grows by nodes of its own that entries describe. -/
theorem reshapes_grow {stage' : Stage} {entries : List Entry} (holds : stage'.Holds entries)
    (grows : stage.1.size ≤ stage'.1.size)
    (old : ∀ id < stage.1.size, stage'.1.cell id = stage.1.cell id) (sameDone : stage'.2 = stage.2)
    (areNew : ∀ id ∈ entries.map Entry.id, stage.1.size ≤ id) :
    Reshapes stage stage' [] entries :=
  ⟨holds, grows, fun id inUse _ => ⟨old id inUse, by rw [sameDone]⟩,
    fun id member => .inr (areNew id member)⟩

/-- A new node has nothing around it and nothing in it. -/
theorem makes_create {entries : List Entry} (holds : stage.Holds entries) (kind : Kind)
    (source : Option String) :
    Makes (Step.edit (create kind source)) stage entries fun id after =>
      after = entries ++ [⟨id, { kind, source }, false⟩] := by
  have notDone : stage.1.size ∉ stage.2 := fun member => Nat.lt_irrefl _ (holds.inUse _ member)
  have reshapes : Reshapes stage (stage.1.add { kind, source }, stage.2) []
      [⟨stage.1.size, { kind, source }, false⟩] := by
    refine reshapes_grow ⟨holds.linked.add kind source, fun id member => ?_,
      List.forall_mem_singleton.mpr ⟨?_, cell_add_self .., by simpa using notDone⟩,
      List.nodup_singleton _⟩ ?_ (fun id inUse => cell_add_of_lt inUse _) rfl (by simp)
    · exact size_add .. ▸ Nat.lt_succ_of_lt (holds.inUse id member)
    · exact size_add .. ▸ Nat.lt_succ_self _
    · exact size_add .. ▸ Nat.le_succ _
  exact ⟨0, stage.1.size, _, _, .of_forall fun _ => rfl,
    (reshapes.frame entries holds).perm (.refl _) List.perm_append_comm, rfl⟩

theorem height_le_length_idsOf (row : List Tagged) :
    heightIn (nodesOf row) ≤ (idsOf row).length := by
  induction row using tagged_induction with
  | nil => exact Nat.zero_le _
  | leaf id source content rest ofRest =>
      rw [idsOf_leaf, List.length_cons]
      simpa [Tagged.node, heightIn, Node.height] using Nat.le_succ_of_le ofRest
  | block id source head settled children rest ofChildren ofRest =>
      rw [idsOf_block, List.length_cons, List.length_append]
      simp only [nodesOf_cons, Tagged.node, heightIn, Node.height]
      omega

/-- A tree is copied beside what there is.  The copy has numbers of its own. -/
theorem makes_copy {tree : Tagged} (holds : stage.Holds (tree.entries parent)) :
    ∃ copied forest' tree', (copyTo (stage.1.size + 1) tree.id).apply stage.1 =
        (.ok copied, forest') ∧
      (tree' : Tagged).id = copied ∧ tree'.node = tree.node.copy ∧
        Reshapes stage (forest', stage.2) [] (tree'.entries none) := by
  have holdsRow : stage.Holds (entriesIn parent [tree]) := (entriesIn_singleton ..).symm ▸ holds
  have inUse : tree.id < stage.1.size :=
    @id_top parent tree ▸ (holdsRow.isIn _ (top_mem_entriesIn List.mem_cons_self)).inUse
  have has : stage.1.HasTree tree.id tree.node.clearMarks :=
    hasTrees_singleton_iff.mp holdsRow.hasTrees
  have atMost : tree.node.clearMarks.height < stage.1.size + 1 := by
    have within : idsOf [tree] ⊆ List.range stage.1.size := fun id member =>
      List.mem_range.mpr (holdsRow.inUse_of_mem (map_id_eq_idsOf parent [tree] ▸ member))
    have nodup : (idsOf [tree]).Nodup := map_id_eq_idsOf parent [tree] ▸ holdsRow.nodup
    have fewer := (nodup.subperm within).length_le
    have isHeight := height_le_length_idsOf [tree]
    rw [List.length_range] at fewer
    rw [height_clearMarks]
    simp only [nodesOf_cons, nodesOf_nil, heightIn] at isHeight
    omega
  obtain ⟨copied, forest', done, grown⟩ :=
    copiesTree_copyTo _ _ atMost stage.1 tree.id holds.linked inUse has
  rw [Node.copy_clearMarks] at grown
  have notDone : ∀ id, stage.1.size ≤ id → id ∉ stage.2 := fun id isNew member =>
    Nat.not_lt.mpr isNew (holds.inUse id member)
  have areNew : ∀ other, Relation.ReflTransGen forest'.IsParent copied other →
      stage.1.size ≤ other := fun other below =>
    ((grown.isNew_iff holds.linked other).mp ⟨copied, List.mem_cons_self, below⟩).1
  obtain ⟨tree', isId, isNode, holdsCopy, below⟩ := exists_tagged (forest', stage.2)
    grown.linked (fun id member => Nat.lt_of_lt_of_le (holds.inUse id member) grown.grows)
    (grown.isNew copied List.mem_cons_self).2 (hasTrees_singleton_iff.mp grown.has)
    fun other orBelow =>
      ⟨grown.bare other (areNew other orBelow), notDone other (areNew other orBelow)⟩
  rw [grown.detached copied List.mem_cons_self, entriesIn_singleton] at holdsCopy
  refine ⟨copied, forest', tree', done, isId, isNode,
    reshapes_grow holdsCopy grown.grows grown.old rfl fun id member => areNew id (below id ?_)⟩
  simpa [← map_id_eq_idsOf none] using member

/-- A tree is cloned beside itself. -/
theorem makes_clone {tree : Tagged} (holds : stage.Holds (tree.entries parent)) :
    Makes (Step.edit (clone tree.id [])) stage (tree.entries parent) fun id after =>
      ∃ tree' : Tagged, tree'.id = id ∧ tree'.node = tree.node.copy ∧
        after = tree.entries parent ++ tree'.entries none := by
  obtain ⟨copied, forest', tree', done, isId, isNode, reshapes⟩ := makes_copy holds
  refine ⟨0, copied, (forest', stage.2), _, .of_forall fun calls => ?_,
    (reshapes.frame (tree.entries parent) holds).perm (.refl _) List.perm_append_comm,
    tree', isId, isNode, rfl⟩
  rw [apply_edit, apply_clone, done]
  rfl

/-- A rule is cloned beside itself, with another selector list. -/
theorem makes_cloneRule {id : NodeId} {source : Option String} {selector : String} {settled : Bool}
    {children : List Tagged}
    (holds : stage.Holds
      (Tagged.entries parent (.block id source (.rule selector) settled children)))
    (text : String) :
    Makes (Step.edit (clone id [("selector", .text text)])) stage
      (Tagged.entries parent (.block id source (.rule selector) settled children))
      fun copied after => ∃ children', nodesOf children' = copyInto source (nodesOf children) ∧
        after = Tagged.entries parent (.block id source (.rule selector) settled children) ++
          Tagged.entries none (.block copied source (.rule text) false children') := by
  obtain ⟨copied, forest', tree', done, isId, isNode, reshapes⟩ := makes_copy holds
  cases tree' with
  | leaf => cases isNode
  | block copied' source' head settled' children' =>
      obtain ⟨rfl, rfl, rfl, sameChildren⟩ :
          source' = source ∧ head = .rule selector ∧ settled' = false ∧
            nodesOf children' = copyInto source (nodesOf children) := by
        simpa [Tagged.node, Node.copy] using isNode
      obtain rfl : copied' = copied := isId
      have holdsTop := holds_top reshapes.holds
      have isRule : (forest'.cell copied').kind = .block (.rule selector) :=
        congrArg Cell.kind (holdsTop.isIn _ List.mem_cons_self).cell
      have renamed := reshapes_kind holdsTop (.block (.rule text)) rfl
      have isRenamed := renamed.frame (entriesIn (some copied') children') reshapes.holds
      have whole := (reshapes.trans isRenamed).frame
        (Tagged.entries parent (.block id source' (.rule selector) settled children)) holds
      refine ⟨0, copied', _, _, .of_forall fun calls => ?_,
        whole.perm (.refl _) List.perm_append_comm, children', sameChildren, rfl⟩
      have isSet : overwrite (forest'.kindName id) (forest'.cell copied') "selector" (.text text) =
          .ok { forest'.cell copied' with kind := .block (.rule text) } := by
        rw [overwrite, setAttribute, setField?, isRule]
        rfl
      have isCopied : (copyTo (stage.1.size + 1) id).apply stage.1 = (.ok copied', forest') := done
      rw [apply_edit, apply_clone, isCopied]
      dsimp only
      rw [apply_override_cons]
      dsimp only
      rw [isSet]
      exact congrArg (fun forest => (Except.ok copied', (forest, stage.2))) (update_congr rfl)

end Step

end ContainerPreview
