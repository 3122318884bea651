import ContainerPreview.Proofs.Forest.Linked
import ContainerPreview.Transform.Toggle.Worker

/-!
# What a step of a pass changes

A forest under a pass is described by entries, each of which says all there is to say of one node:
its cell, and whether the pass is done with it.  A step that reshapes some entries leaves every
other node alone that has been there, and what it describes anew are the nodes of those entries and
new ones.  So a step does the same beside any further entries, and steps can be looked at where they
work and be put together afterwards.
-/

namespace ContainerPreview

/-- All there is to say of a node under a pass. -/
structure Entry where
  id : NodeId
  cell : Cell
  settled : Bool

/-- The entry says what the node is. -/
structure Entry.IsIn (entry : Entry) (stage : Stage) : Prop where
  inUse : entry.id < stage.1.size
  cell : stage.1.cell entry.id = entry.cell
  settled : entry.id ∈ stage.2 ↔ entry.settled = true

namespace Stage

/-- A node is the same in two stages of a pass. -/
structure SameAt (stage stage' : Stage) (id : NodeId) : Prop where
  cell : stage'.1.cell id = stage.1.cell id
  settled : id ∈ stage'.2 ↔ id ∈ stage.2

theorem SameAt.refl (stage : Stage) (id : NodeId) : SameAt stage stage id :=
  ⟨rfl, Iff.rfl⟩

theorem SameAt.trans {stage stage' stage'' : Stage} {id : NodeId} (first : SameAt stage stage' id)
    (second : SameAt stage' stage'' id) : SameAt stage stage'' id :=
  ⟨second.cell.trans first.cell, second.settled.trans first.settled⟩

/-- A linked forest under a pass is as entries say, which are of distinct nodes. -/
structure Holds (stage : Stage) (entries : List Entry) : Prop where
  linked : stage.1.WellLinked
  inUse : ∀ id ∈ stage.2, id < stage.1.size
  isIn : ∀ entry ∈ entries, entry.IsIn stage
  nodup : (entries.map Entry.id).Nodup

/-- What some entries say becomes what others say, and nothing else changes but that there may be
new nodes. -/
structure Reshapes (stage stage' : Stage) (before after : List Entry) : Prop where
  holds : stage'.Holds after
  grows : stage.1.size ≤ stage'.1.size
  others : ∀ id < stage.1.size, id ∉ before.map Entry.id → SameAt stage stage' id
  fresh : ∀ id ∈ after.map Entry.id, id ∈ before.map Entry.id ∨ stage.1.size ≤ id

variable {stage stage' stage'' : Stage} {before after after' extra : List Entry}

theorem Holds.perm (holds : stage.Holds before) (same : before.Perm after) : stage.Holds after where
  linked := holds.linked
  inUse := holds.inUse
  isIn entry member := holds.isIn entry (same.mem_iff.mpr member)
  nodup := (same.map Entry.id).nodup_iff.mp holds.nodup

theorem Holds.sublist (holds : stage.Holds before) (within : after.Sublist before) :
    stage.Holds after where
  linked := holds.linked
  inUse := holds.inUse
  isIn entry member := holds.isIn entry (within.subset member)
  nodup := (within.map Entry.id).nodup holds.nodup

theorem Holds.left (holds : stage.Holds (before ++ extra)) : stage.Holds before :=
  holds.sublist (List.sublist_append_left ..)

theorem Holds.right (holds : stage.Holds (extra ++ before)) : stage.Holds before :=
  holds.sublist (List.sublist_append_right ..)

theorem Holds.head {entry : Entry} (holds : stage.Holds (entry :: before)) :
    stage.Holds [entry] :=
  holds.sublist (List.singleton_sublist.mpr List.mem_cons_self)

theorem Holds.tail {entry : Entry} (holds : stage.Holds (entry :: before)) : stage.Holds before :=
  holds.sublist (List.sublist_cons_self ..)

theorem Holds.inUse_of_mem (holds : stage.Holds before) {id : NodeId}
    (member : id ∈ before.map Entry.id) : id < stage.1.size := by
  obtain ⟨entry, isEntry, rfl⟩ := List.mem_map.mp member
  exact (holds.isIn entry isEntry).inUse

theorem Holds.notMem_right (holds : stage.Holds (before ++ extra)) {id : NodeId}
    (member : id ∈ before.map Entry.id) : id ∉ extra.map Entry.id := fun isExtra =>
  List.disjoint_of_nodup_append (List.map_append ▸ holds.nodup) member isExtra

theorem SameAt.isIn {entry : Entry} (same : SameAt stage stage' entry.id)
    (grows : stage.1.size ≤ stage'.1.size) (isIn : entry.IsIn stage) : entry.IsIn stage' :=
  ⟨Nat.lt_of_lt_of_le isIn.inUse grows, same.cell.trans isIn.cell, same.settled.trans isIn.settled⟩

namespace Reshapes

theorem refl (holds : stage.Holds before) : Reshapes stage stage before before :=
  ⟨holds, Nat.le_refl _, fun id _ _ => .refl stage id, fun _ member => .inl member⟩

theorem trans (first : Reshapes stage stage' before after)
    (second : Reshapes stage' stage'' after after') : Reshapes stage stage'' before after' where
  holds := second.holds
  grows := Nat.le_trans first.grows second.grows
  others id inUse notHere := by
    have notNext : id ∉ after.map Entry.id := fun member =>
      (first.fresh id member).elim notHere fun isNew => Nat.not_lt.mpr isNew inUse
    exact (first.others id inUse notHere).trans
      (second.others id (Nat.lt_of_lt_of_le inUse first.grows) notNext)
  fresh id member := by
    rcases second.fresh id member with isNext | isNew
    · exact first.fresh id isNext
    · exact .inr (Nat.le_trans first.grows isNew)

theorem perm {before' : List Entry} (reshapes : Reshapes stage stage' before after)
    (sameBefore : before.Perm before') (sameAfter : after.Perm after') :
    Reshapes stage stage' before' after' where
  holds := reshapes.holds.perm sameAfter
  grows := reshapes.grows
  others id inUse notHere :=
    reshapes.others id inUse fun member => notHere ((sameBefore.map Entry.id).mem_iff.mp member)
  fresh id member := by
    rcases reshapes.fresh id ((sameAfter.map Entry.id).mem_iff.mpr member) with isOld | isNew
    · exact .inl ((sameBefore.map Entry.id).mem_iff.mp isOld)
    · exact .inr isNew

variable (extra) in
/-- Further entries are left alone. -/
theorem frame (reshapes : Reshapes stage stage' before after)
    (holds : stage.Holds (before ++ extra)) :
    Reshapes stage stage' (before ++ extra) (after ++ extra) := by
  have apart : ∀ id ∈ extra.map Entry.id, id ∉ before.map Entry.id :=
    fun id isExtra isHere => holds.notMem_right isHere isExtra
  refine ⟨⟨reshapes.holds.linked, reshapes.holds.inUse, ?_, ?_⟩, reshapes.grows,
    fun id inUse notHere => ?_, fun id member => ?_⟩
  · refine List.forall_mem_append.mpr ⟨reshapes.holds.isIn, fun entry isExtra => ?_⟩
    have isIn := holds.isIn entry (List.mem_append_right _ isExtra)
    exact (reshapes.others entry.id isIn.inUse (apart _ (List.mem_map_of_mem isExtra))).isIn
      reshapes.grows isIn
  · rw [List.map_append]
    refine List.nodup_append.mpr ⟨reshapes.holds.nodup, holds.right.nodup, ?_⟩
    rintro id isAfter _ isExtra rfl
    rcases reshapes.fresh id isAfter with isBefore | isNew
    · exact apart id isExtra isBefore
    · exact Nat.not_lt.mpr isNew (holds.right.inUse_of_mem isExtra)
  · rw [List.map_append, List.mem_append, not_or] at notHere
    exact reshapes.others id inUse notHere.1
  · rw [List.map_append, List.mem_append] at member ⊢
    exact member.elim (fun isAfter => (reshapes.fresh id isAfter).imp_left .inl)
      fun isExtra => .inl (.inr isExtra)

end Reshapes

end Stage

/-! ## Steps that succeed -/

namespace Step

open Stage

variable {α β : Type} {step : Step α} {next : α → Step β} {stage : Stage}
  {before extra whole : List Entry} {post : α → List Entry → Prop} {post' : β → List Entry → Prop}

theorem apply_bind (step : Step α) (next : α → Step β) (calls : Nat) (stage : Stage) :
    (step >>= next).apply calls stage =
      match step.apply calls stage with
      | (.ok value, changed) => (next value).apply calls changed
      | (.error error, changed) => (.error error, changed) := by
  simp only [apply, ReaderT.run_bind, ExceptT.run_bind, StateT.run_bind]
  rcases (step.run calls).run.run stage with ⟨_ | _, _⟩ <;> rfl

/-- With a stack that reaches so deep into the values something gets done, and with any other it
breaks off. -/
def Needs (deep : Nat) (done broken : Nat → Prop) : Prop :=
  ∀ calls, (deep ≤ calls → done calls) ∧ (calls < deep → broken calls)

namespace Needs

variable {deep deep' : Nat} {done broken done' broken' done'' broken'' : Nat → Prop}

theorem of_forall (always : ∀ calls, done calls) : Needs 0 done broken := fun calls =>
  ⟨fun _ => always calls, fun less => absurd less (Nat.not_lt_zero _)⟩

theorem mono (needs : Needs deep done broken) (whenDone : ∀ calls, done calls → done' calls)
    (whenBroken : ∀ calls, broken calls → broken' calls) : Needs deep done' broken' := fun calls =>
  ⟨whenDone calls ∘ (needs calls).1, whenBroken calls ∘ (needs calls).2⟩

/-- Of two things, one after the other, the one that needs more counts. -/
theorem both (first : Needs deep done broken) (second : Needs deep' done' broken')
    (whenDone : ∀ calls, done calls → done' calls → done'' calls)
    (whenBroken : ∀ calls, broken calls → broken'' calls)
    (whenBroken' : ∀ calls, done calls → broken' calls → broken'' calls) :
    Needs (max deep deep') done'' broken'' := by
  refine fun calls => ⟨fun enough => ?_, fun less => ?_⟩
  · obtain ⟨enough, enough'⟩ := Nat.max_le.mp enough
    exact whenDone calls ((first calls).1 enough) ((second calls).1 enough')
  · rcases Nat.lt_or_ge calls deep with lessFirst | enough
    · exact whenBroken calls ((first calls).2 lessFirst)
    · exact whenBroken' calls ((first calls).1 enough) ((second calls).2 (by omega))

end Needs

/-- With a stack that reaches so deep into the values the step succeeds, and with any other it fails
for this reason. -/
def Ends (deep : Nat) (step : Step α) (stage : Stage) (value : α) (stage' : Stage) : Prop :=
  Needs deep (fun calls => step.apply calls stage = (.ok value, stage'))
    fun calls => (step.apply calls stage).1 = .error .tooDeep

namespace Ends

variable {deep deep' : Nat} {value : α} {value' : β} {middle stage' : Stage}

theorem congr {step' : Step α} (ends : Ends deep step stage value stage')
    (same : ∀ calls, step'.apply calls stage = step.apply calls stage) :
    Ends deep step' stage value stage' :=
  ends.mono (fun calls done => (same calls).trans done) fun calls failed => same calls ▸ failed

theorem bind (first : Ends deep step stage value middle)
    (second : Ends deep' (next value) middle value' stage') :
    Ends (max deep deep') (step >>= next) stage value' stage' := by
  refine first.both second (fun calls done done' => ?_) (fun calls failed => ?_)
    fun calls done failed => ?_
  · rw [apply_bind, done]
    exact done'
  · rw [apply_bind]
    generalize step.apply calls stage = ended at failed ⊢
    rcases ended with ⟨_ | _, _⟩
    · cases failed
      rfl
    · cases failed
  · rw [apply_bind, done]
    exact failed

end Ends

theorem ends_reach (depth : Nat) (stage : Stage) : Ends depth (reach depth) stage () stage := by
  have isReach : ∀ calls, (reach depth).apply calls stage =
      (if calls < depth then (throw .tooDeep : Step Unit) else pure ()).apply calls stage :=
    fun _ => rfl
  refine fun calls => ⟨fun enough => ?_, fun less => ?_⟩
  · refine (isReach calls).trans ?_
    rw [if_neg (Nat.not_lt.mpr enough)]
    rfl
  · refine (congrArg Prod.fst (isReach calls)).trans ?_
    rw [if_pos less]
    rfl

/-- The step succeeds if the stack reaches deep enough, and makes of some entries what is stated. -/
def Makes (step : Step α) (stage : Stage) (before : List Entry) (post : α → List Entry → Prop) :
    Prop :=
  ∃ deep value stage' after, Ends deep step stage value stage' ∧
    Reshapes stage stage' before after ∧ post value after

namespace Makes

theorem pure (holds : stage.Holds before) {value : α} (isPost : post value before) :
    Makes (Pure.pure value : Step α) stage before post :=
  ⟨0, value, stage, before, .of_forall fun _ => rfl, .refl holds, isPost⟩

theorem bind (first : Makes step stage before post)
    (second : ∀ value stage' after, Reshapes stage stage' before after → post value after →
      Makes (next value) stage' after post') :
    Makes (step >>= next) stage before post' := by
  obtain ⟨_, value, middle, between, ends, reshapes, isPost⟩ := first
  obtain ⟨_, value', stage', after, ends', reshapes', isPost'⟩ :=
    second value middle between reshapes isPost
  exact ⟨_, value', stage', after, ends.bind ends', reshapes.trans reshapes', isPost'⟩

/-- A step that looks at what there is. -/
theorem get {next : Stage → Step β} (makes : Makes (next stage) stage before post') :
    Makes (MonadState.get >>= next) stage before post' := by
  obtain ⟨_, value, stage', after, ends, reshapes, isPost⟩ := makes
  exact ⟨_, value, stage', after, ends.congr fun calls => apply_bind _ next calls stage, reshapes,
    isPost⟩

theorem mono {post' : α → List Entry → Prop} (makes : Makes step stage before post)
    (weaker : ∀ value after, post value after → post' value after) :
    Makes step stage before post' := by
  obtain ⟨_, value, stage', after, ends, reshapes, isPost⟩ := makes
  exact ⟨_, value, stage', after, ends, reshapes, weaker value after isPost⟩

/-- A step works on a part of what there is. -/
theorem within {post' : α → List Entry → Prop} (makes : Makes step stage before post)
    (isWhole : whole.Perm (before ++ extra)) (holds : stage.Holds whole)
    (whole' : ∀ value after, post value after →
      ∃ changed, (after ++ extra).Perm changed ∧ post' value changed) :
    Makes step stage whole post' := by
  obtain ⟨_, value, stage', after, ends, reshapes, isPost⟩ := makes
  obtain ⟨changed, isChanged, isPost'⟩ := whole' value after isPost
  exact ⟨_, value, stage', changed, ends,
    (reshapes.frame extra (holds.perm isWhole)).perm isWhole.symm isChanged, isPost'⟩

/-- What is on the right of the part that a step works on stays there. -/
theorem frameRight (makes : Makes step stage before post) (holds : stage.Holds (before ++ extra)) :
    Makes step stage (before ++ extra) fun value after =>
      ∃ part, after = part ++ extra ∧ post value part :=
  makes.within (.refl _) holds fun _ part isPost => ⟨_, .refl _, part, rfl, isPost⟩

/-- What is on the left of the part that a step works on stays there. -/
theorem frameLeft (makes : Makes step stage before post) (holds : stage.Holds (extra ++ before)) :
    Makes step stage (extra ++ before) fun value after =>
      ∃ part, after = extra ++ part ∧ post value part :=
  makes.within List.perm_append_comm holds fun _ part isPost =>
    ⟨_, List.perm_append_comm, part, rfl, isPost⟩

end Makes

end Step

end ContainerPreview
