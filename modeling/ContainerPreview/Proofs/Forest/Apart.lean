import ContainerPreview.Proofs.Forest.Linked

/-!
# Edits far from a node

A set of nodes is secluded if whatever has its parent in the set is in the set.  An edit that is
not given a node of a secluded set to change leaves all of them as they are, whether it succeeds
or fails: it reaches other nodes than those it is given only by going up from them, or by making
them, and neither leads into the set.

So any row of changes that are not made to a node or to nodes below it leaves these as they are.
-/

namespace ContainerPreview

namespace Forest

variable {forest : Forest} {inside : NodeId → Prop} {container child id : NodeId}
  {nodes : List NodeId} {α β : Type}

/-! ## Secluded sets -/

/-- A set of nodes in use is closed under going down. -/
structure Secluded (forest : Forest) (inside : NodeId → Prop) : Prop where
  inUse : ∀ id, inside id → id < forest.size
  below : ∀ parent id, forest.IsParent parent id → inside parent → inside id

/-- A node with all nodes below it. -/
theorem secluded_below (inUse : id < forest.size) :
    Secluded forest (Relation.ReflTransGen forest.IsParent id) where
  inUse other orBelow := by
    rcases Relation.ReflTransGen.cases_tail orBelow with rfl | ⟨parent, -, isParent⟩
    · exact inUse
    · exact inUse_of_isParent isParent
  below _ _ isParent orBelow := orBelow.tail isParent

/-- All nodes in use. -/
theorem secluded_all (forest : Forest) : Secluded forest (· < forest.size) where
  inUse _ inUse := inUse
  below _ _ isParent _ := inUse_of_isParent isParent

theorem Secluded.update (secluded : Secluded forest inside) {change : Cell → Cell}
    (parent : ∀ cell parent, (change cell).parent = some parent →
      cell.parent = some parent ∨ ¬ inside parent) :
    Secluded (forest.update id change) inside where
  inUse other isInside := by
    rw [size_update]
    exact secluded.inUse other isInside
  below above other isParent isInside := by
    rw [IsParent, parent?, cell_update] at isParent
    split at isParent
    · rcases parent _ above isParent with isOld | isOutside
      · exact secluded.below above other isOld isInside
      · exact absurd isInside isOutside
    · exact secluded.below above other isParent isInside

/-! ## Edits that leave a set alone -/

/-- What an edit has made of a forest: the nodes of a set are as they were and still secluded,
and the result of the edit, if it has one, is as described. -/
structure LeftAlone (inside : NodeId → Prop) (gives : α → Prop) (forest : Forest)
    (result : Except EditError α × Forest) : Prop where
  secluded : Secluded result.2 inside
  cell : ∀ id, inside id → result.2.cell id = forest.cell id
  gives : ∀ value, result.1 = .ok value → gives value

/-- The edit leaves a set of nodes alone wherever it is secluded. -/
def Avoids (inside : NodeId → Prop) (edit : Edit α) (gives : α → Prop) : Prop :=
  ∀ forest, Secluded forest inside → LeftAlone inside gives forest (edit.apply forest)

/-- Any result will do. -/
abbrev anything : α → Prop :=
  fun _ => True

namespace Avoids

variable {edit : Edit α} {next : α → Edit β} {gives : α → Prop} {gives' : β → Prop}

theorem pure {value : α} (given : gives value) : Avoids inside (pure value) gives :=
  fun _ secluded => ⟨secluded, fun _ _ => rfl, fun _ isValue => Except.ok.inj isValue ▸ given⟩

theorem throw (error : EditError) (gives : α → Prop) : Avoids inside (throw error) gives :=
  fun _ secluded => ⟨secluded, fun _ _ => rfl, nofun⟩

theorem get : Avoids inside get (Secluded · inside) :=
  fun _ secluded => ⟨secluded, fun _ _ => rfl, fun _ isForest => Except.ok.inj isForest ▸ secluded⟩

theorem ask {question : Forest → Except EditError α}
    (answers : ∀ forest, Secluded forest inside → ∀ value, question forest = .ok value →
      gives value) : Avoids inside (Edit.ask question) gives := by
  intro forest secluded
  rw [Edit.apply_ask]
  exact ⟨secluded, fun _ _ => rfl, answers forest secluded⟩

theorem bind (first : Avoids inside edit gives)
    (later : ∀ value, gives value → Avoids inside (next value) gives') :
    Avoids inside (edit >>= next) gives' := by
  intro forest secluded
  have left := first forest secluded
  rw [Edit.apply_bind]
  generalize edit.apply forest = result at left
  rcases result with ⟨error | value, changed⟩
  · exact ⟨left.secluded, left.cell, nofun⟩
  · have left' := later value (left.gives value rfl) changed left.secluded
    exact ⟨left'.secluded,
      fun id isInside => (left'.cell id isInside).trans (left.cell id isInside), left'.gives⟩

theorem change (outside : ¬ inside id) {change : Cell → Cell}
    (parent : ∀ cell parent, (change cell).parent = some parent →
      cell.parent = some parent ∨ ¬ inside parent) :
    Avoids inside (Edit.change id change) anything := by
  refine fun _ secluded => ⟨secluded.update parent, fun other isInside => ?_, fun _ _ => trivial⟩
  have different : other ≠ id := fun same => outside (same ▸ isInside)
  exact cell_update_of_ne different change

/-- A change that leaves the parent of the node alone. -/
theorem change_of_same (outside : ¬ inside id) {change : Cell → Cell}
    (parent : ∀ cell, (change cell).parent = cell.parent) :
    Avoids inside (Edit.change id change) anything :=
  .change outside fun cell _ isParent => .inl ((parent cell).symm.trans isParent)

/-! ## Moving nodes -/

theorem removeChild (outside : ¬ inside container) (outside' : ¬ inside child) :
    Avoids inside (removeChild container child) anything :=
  (ask fun _ _ _ _ => trivial).bind fun _ _ =>
    (change_of_same outside fun _ => by rfl).bind fun _ _ =>
      change outside' fun _ _ isParent => nomatch isParent

theorem remove (outside : ¬ inside id) : Avoids inside (remove id) anything := by
  refine get.bind fun forest secluded => ?_
  cases isParent : forest.parent? id with
  | none => exact pure trivial
  | some parent =>
      have isOutside : ¬ inside parent := fun isInside =>
        outside (secluded.below parent id isParent isInside)
      exact removeChild isOutside outside

theorem adoptOne (outside : ¬ inside container) (outside' : ¬ inside id) :
    Avoids inside (adoptOne container id) anything := by
  refine get.bind fun forest _ => ?_
  split
  · refine (remove outside').bind fun _ _ => get.bind fun _ _ => change outside' ?_
    exact fun _ _ isParent => .inr (Option.some.inj isParent ▸ outside)
  · exact throw _ _

theorem adopt (outside : ¬ inside container) (outsideAll : ∀ id ∈ nodes, ¬ inside id) :
    Avoids inside (adopt container nodes) anything := by
  induction nodes with
  | nil => exact pure trivial
  | cons id ids inductionHypothesis =>
      obtain ⟨here, later⟩ := List.forall_mem_cons.mp outsideAll
      exact (adoptOne outside here).bind fun _ _ => inductionHypothesis later

/-- An edit that takes nodes and puts them in. -/
theorem places {edit : Edit Unit} {place : Forest → Except EditError (Nat × (Int → Int))}
    (places : Places edit container nodes place)
    (outside : ∀ id ∈ container :: nodes, ¬ inside id) :
    Avoids inside edit anything := by
  obtain ⟨here, later⟩ := List.forall_mem_cons.mp outside
  intro forest secluded
  have left := adopt here later forest secluded
  rw [places forest]
  generalize (Forest.adopt container nodes).apply forest = result at left
  rcases result with ⟨error | _, taken⟩
  · exact ⟨left.secluded, left.cell, nofun⟩
  · dsimp only
    cases place taken with
    | error error => exact ⟨left.secluded, left.cell, nofun⟩
    | ok spot =>
        have put : Avoids inside (Edit.change container fun cell =>
            (cell.splice spot.1 nodes).moveCursors spot.2) anything :=
          change_of_same here fun _ => rfl
        have left' := put taken left.secluded
        exact ⟨left'.secluded, fun id isInside => (left'.cell id isInside).trans
          (left.cell id isInside), fun _ _ => trivial⟩

/-- The parent of a node outside is outside. -/
theorem requireParent (outside : ¬ inside id) :
    Avoids inside (requireParent id) fun parent => ¬ inside parent := by
  refine ask fun forest secluded parent isAnswer isInside => ?_
  cases isParent : forest.parent? id with
  | none => simp [isParent] at isAnswer
  | some above =>
      simp only [isParent, Except.ok.injEq] at isAnswer
      exact outside (secluded.below parent id (isAnswer ▸ isParent) isInside)

theorem before (outside : ∀ other ∈ id :: nodes, ¬ inside other) :
    Avoids inside (before id nodes) anything := by
  obtain ⟨here, later⟩ := List.forall_mem_cons.mp outside
  exact (requireParent here).bind fun parent isOutside =>
    places (places_insertBefore parent id nodes) (List.forall_mem_cons.mpr ⟨isOutside, later⟩)

theorem after (outside : ∀ other ∈ id :: nodes, ¬ inside other) :
    Avoids inside (after id nodes) anything := by
  obtain ⟨here, later⟩ := List.forall_mem_cons.mp outside
  exact (requireParent here).bind fun parent isOutside =>
    places (places_insertAfter parent id nodes) (List.forall_mem_cons.mpr ⟨isOutside, later⟩)

theorem replaceWith (outside : ∀ other ∈ id :: nodes, ¬ inside other) :
    Avoids inside (replaceWith id nodes) anything := by
  obtain ⟨here, later⟩ := List.forall_mem_cons.mp outside
  exact (requireParent here).bind fun parent isOutside =>
    (places (places_insertBefore parent id nodes)
      (List.forall_mem_cons.mpr ⟨isOutside, later⟩)).bind fun _ _ => removeChild isOutside here

/-! ## Making and copying nodes -/

/-- A new node is outside, since all nodes of the set are in use already. -/
theorem create (kind : Kind) (source : Option String) :
    Avoids inside (create kind source) fun id => ¬ inside id := by
  intro forest secluded
  have isNew : ¬ inside forest.size := fun isInside =>
    Nat.lt_irrefl _ (secluded.inUse _ isInside)
  refine ⟨⟨fun id isInside => ?_, fun parent id isParent isInside => ?_⟩, fun id isInside => ?_,
    fun id isId => Except.ok.inj isId ▸ isNew⟩
  · exact Nat.lt_of_lt_of_le (secluded.inUse id isInside) (size_add forest _ ▸ Nat.le_succ _)
  · change (forest.add { kind, source }).IsParent parent id at isParent
    rw [IsParent, parent?, cell_add] at isParent
    split at isParent
    · cases isParent
    · exact secluded.below parent id isParent isInside
  · exact cell_add_of_lt (secluded.inUse id isInside) _

theorem createWith (outside : ∀ id ∈ nodes, ¬ inside id) (kind : Kind) (source : Option String) :
    Avoids inside (createWith kind source nodes) fun id => ¬ inside id :=
  (create kind source).bind fun id isOutside =>
    (places (places_append id nodes) (List.forall_mem_cons.mpr ⟨isOutside, outside⟩)).bind
      fun _ _ => pure isOutside

theorem mapM {edit : NodeId → Edit NodeId}
    (avoids : ∀ id, Avoids inside (edit id) fun copy => ¬ inside copy) (ids : List NodeId) :
    Avoids inside (ids.mapM edit) fun copies => ∀ copy ∈ copies, ¬ inside copy := by
  induction ids with
  | nil => exact pure (List.forall_mem_nil _)
  | cons id ids inductionHypothesis =>
      rw [List.mapM_cons]
      exact (avoids id).bind fun copy isOutside => inductionHypothesis.bind fun copies areOutside =>
        pure (List.forall_mem_cons.mpr ⟨isOutside, areOutside⟩)

/-- A node that is copied may be in the set, since it is only looked at. -/
theorem copyTo (levels : Nat) (id : NodeId) :
    Avoids inside (copyTo levels id) fun copy => ¬ inside copy := by
  induction levels generalizing id with
  | zero => exact throw _ _
  | succ levels inductionHypothesis =>
      refine get.bind fun forest _ => ?_
      dsimp only
      split
      · exact throw _ _
      · exact throw _ _
      · exact create _ _
      · exact (mapM inductionHypothesis _).bind fun copies areOutside => createWith areOutside _ _

/-! ## Attributes -/

/-- A node keeps its parent when an attribute is overwritten. -/
theorem overwriting {forest : Forest} (secluded : Secluded forest inside) (outside : ¬ inside id)
    {kindName name : String} {value : FieldValue} {changed : Cell}
    (isSet : overwrite kindName (forest.cell id) name value = .ok changed) :
    Avoids inside (Edit.change id fun _ => changed) anything := by
  refine change outside fun _ parent isParent => .inr fun isInside => ?_
  rw [(eq_of_overwrite isSet).1] at isParent
  exact outside (secluded.below parent id isParent isInside)

theorem override (outside : ¬ inside id) (kindName : String)
    (overrides : List (String × FieldValue)) :
    Avoids inside (override kindName id overrides) anything := by
  induction overrides with
  | nil => exact pure trivial
  | cons entry overrides inductionHypothesis =>
      refine get.bind fun forest secluded => ?_
      cases isSet : overwrite kindName (forest.cell id) entry.1 entry.2 with
      | error error => exact throw _ _
      | ok changed =>
          exact (overwriting secluded outside isSet).bind fun _ _ => inductionHypothesis

theorem clone (id : NodeId) (overrides : List (String × FieldValue)) :
    Avoids inside (clone id overrides) fun copy => ¬ inside copy :=
  get.bind fun forest _ => (copyTo (forest.size + 1) id).bind fun _ isOutside =>
    get.bind fun _ _ => (override isOutside _ overrides).bind fun _ _ => pure isOutside

theorem assign (outside : ¬ inside id) (name : String) (value : FieldValue) :
    Avoids inside (assign id name value) anything := by
  rw [Forest.assign]
  split
  · exact change outside fun _ _ isParent => nomatch isParent
  · refine get.bind fun forest secluded => ?_
    dsimp only
    split
    · rename_i changed isSet
      exact overwriting secluded outside isSet
    · exact pure trivial
    · exact throw _ _

end Avoids

/-! ## Rows of changes -/

/-- Anything that can be done to the nodes of a forest, whether it succeeds or not: an action, or
a field that is overwritten. -/
inductive Mutation where
  | act (action : Action)
  | assign (id : NodeId) (field : String) (value : FieldValue)

/-- The nodes that are given to an action to be changed.  One that is copied is only looked at. -/
def Action.changes : Action → List NodeId
  | .make _ _ nodes => nodes
  | .operate operation => operation.names
  | .clone _ _ => []

namespace Mutation

/-- The nodes that are given to be changed. -/
def changes : Mutation → List NodeId
  | .act action => action.changes
  | .assign id _ _ => [id]

/-- The edit that a mutation is. -/
def edit : Mutation → Edit Unit
  | .act action => action.edit
  | .assign id field value => Forest.assign id field value

end Mutation

/-- The forest after a row of mutations.  One that fails leaves what it has done. -/
def mutate : List Mutation → Forest → Forest
  | [], forest => forest
  | mutation :: mutations, forest => mutate mutations (mutation.edit.apply forest).2

theorem Avoids.operate {operation : Operation} (outside : ∀ id ∈ operation.names, ¬ inside id) :
    Avoids inside operation.edit anything := by
  cases operation with
  | create kind source => exact (create kind source).bind fun _ _ => pure trivial
  | append container nodes => exact places (places_append container nodes) outside
  | prepend container nodes => exact places (places_prepend container nodes) outside
  | insertBefore container existing nodes =>
      obtain ⟨here, later⟩ := List.forall_mem_cons.mp outside
      exact places (places_insertBefore container existing nodes)
        (List.forall_mem_cons.mpr ⟨here, (List.forall_mem_cons.mp later).2⟩)
  | insertAfter container existing nodes =>
      obtain ⟨here, later⟩ := List.forall_mem_cons.mp outside
      exact places (places_insertAfter container existing nodes)
        (List.forall_mem_cons.mpr ⟨here, (List.forall_mem_cons.mp later).2⟩)
  | removeChild container child =>
      exact removeChild (outside container (by simp [Operation.names]))
        (outside child (by simp [Operation.names]))
  | remove id => exact remove (outside id (by simp [Operation.names]))
  | before id nodes => exact before outside
  | after id nodes => exact after outside
  | replaceWith id nodes => exact replaceWith outside

/-- One step. -/
theorem Avoids.mutation {mutation : Mutation} (outside : ∀ id ∈ mutation.changes, ¬ inside id) :
    Avoids inside mutation.edit anything := by
  cases mutation with
  | act action =>
      cases action with
      | make kind source nodes =>
          exact (createWith outside kind source).bind fun _ _ => pure trivial
      | operate operation => exact operate outside
      | clone id overrides => exact (clone id overrides).bind fun _ _ => pure trivial
  | assign id field value => exact assign (outside id (List.mem_singleton_self id)) field value

/-- A whole row. -/
theorem cell_mutate {mutations : List Mutation} (secluded : Secluded forest inside)
    (outside : ∀ mutation ∈ mutations, ∀ id ∈ mutation.changes, ¬ inside id)
    (isInside : inside id) : (mutate mutations forest).cell id = forest.cell id := by
  induction mutations generalizing forest with
  | nil => rfl
  | cons mutation mutations inductionHypothesis =>
      obtain ⟨here, later⟩ := List.forall_mem_cons.mp outside
      have left := Avoids.mutation here forest secluded
      exact (inductionHypothesis left.secluded later).trans (left.cell id isInside)

end Forest

end ContainerPreview
