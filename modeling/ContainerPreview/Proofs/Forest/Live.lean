import ContainerPreview.Proofs.Forest.Operation

/-!
# Walks whose visitor edits the container

A visitor may do any number of operations at each of its visits: put nodes in, take them
out, move them, and go over the children of a container itself, with a visitor of the same
kind.  Of the children that are there when a walk over a container starts, those that are
never taken out are passed to the visitor once each, in their order.  A new node is passed
once if it is put in ahead of the cursor and never taken out, and never if it is put in
behind the cursor.
-/

namespace ContainerPreview

namespace Forest

/-! ## Scripts of visitors -/

/-- What a visitor does at one visit: operations, each chosen in view of how those before
it went, and walks over the children of containers.  It ends with the reply and a new
state of its own. -/
inductive Script (σ : Type) where
  | done (reply : Reply) (own : σ)
  | act (operation : Operation) (next : Except EditError Unit → Forest → Script σ)
  | each (container : NodeId) (own : σ) (visitor : NodeId → Visited σ → Script σ)
      (next : WalkEnd → Visited σ → Script σ)

variable {σ : Type}

/-- Follows a script, noting the forests that it goes through.  The walks in it get the
given number of steps. -/
def Script.follow (steps : Nat) :
    Script σ → Forest → List Moment → Reply × Visited (σ × List Moment)
  | .done reply own, forest, log => (reply, forest, own, log)
  | .act operation next, forest, log =>
      let result := operation.apply forest
      (next result.1 result.2).follow steps result.2
        (log ++ (operation.trail forest).map .changed)
  | .each container own visitor next, forest, log =>
      let walked := Forest.each
        (fun id state => (visitor id (state.1, state.2.1)).follow steps state.1 state.2.2) steps
        container (forest, own, log)
      (next walked.1 (walked.2.1, walked.2.2.1)).follow steps walked.2.1 walked.2.2.2

/-- The visitor with the given scripts, noting the nodes that are passed to it. -/
def scripted (steps : Nat) (scripts : NodeId → Visited σ → Script σ) :
    Visitor (σ × List Moment) := fun id state =>
  (scripts id (state.1, state.2.1)).follow steps state.1 (state.2.2 ++ [.passed id])

/-! ## Places beside the cursor -/

/-- The node stands after the place of the cursor. -/
def IsAhead (forest : Forest) (container : NodeId) (key : Nat) (node : NodeId) : Prop :=
  ∃ cursor ∈ forest.cursor? container key, cursor < (forest.children container).idxOf node

/-- The node stands at the place of the cursor or before it. -/
def IsBehind (forest : Forest) (container : NodeId) (key : Nat) (node : NodeId) : Prop :=
  ∃ cursor ∈ forest.cursor? container key, (forest.children container).idxOf node ≤ cursor

variable {forest forest' forest'' : Forest} {container other id key : Nat}
  {behind ahead behind' ahead' behindEnd aheadEnd nodes : List NodeId}
  {log log' : List Moment} {node : NodeId}

/-! ## Walks in a script -/

/-- Going from one forest to another and noting it. -/
def Goes (container : NodeId) (key : Nat) (forest : Forest) (log : List Moment)
    (forest' : Forest) (log' : List Moment) : Prop :=
  ∀ behind ahead, forest.Sound → forest.Divides container key behind ahead →
    forest'.Sound ∧ ∃ noted behind' ahead', log' = log ++ noted ∧
      Course container key behind ahead noted behind' ahead' ∧
        forest'.Divides container key behind' ahead'

theorem Goes.refl (container : NodeId) (key : Nat) (forest : Forest) (log : List Moment) :
    Goes container key forest log forest log :=
  fun behind ahead sound divides =>
    ⟨sound, [], behind, ahead, (List.append_nil log).symm, .stop behind ahead, divides⟩

theorem Goes.trans {log'' : List Moment} (first : Goes container key forest log forest' log')
    (second : Goes container key forest' log' forest'' log'') :
    Goes container key forest log forest'' log'' := by
  intro behind ahead sound divides
  obtain ⟨sound', noted, behind', ahead', rfl, course, divides'⟩ :=
    first behind ahead sound divides
  obtain ⟨sound'', noted', behind'', ahead'', rfl, course', divides''⟩ :=
    second behind' ahead' sound' divides'
  exact ⟨sound'', noted ++ noted', behind'', ahead'', List.append_assoc ..,
    course.append course', divides''⟩

theorem Leads.goes (leads : Leads container key forest log' forest') (log : List Moment) :
    Goes container key forest log forest' (log ++ log') := by
  intro behind ahead sound divides
  obtain ⟨sound', behind', ahead', course, divides'⟩ := leads behind ahead sound divides
  exact ⟨sound', log', behind', ahead', rfl, course, divides'⟩

theorem goes_update (change : Cell → Cell)
    (children : ∀ cell, (change cell).children = cell.children)
    (parent : ∀ cell, (change cell).parent = cell.parent)
    (cursors : ∀ cell : Cell,
      (change cell).cursors.find? (·.key == key) = cell.cursors.find? (·.key == key))
    (container id : NodeId) (forest : Forest) (log : List Moment) :
    Goes container key forest log (forest.update id change) log :=
  fun behind ahead sound divides =>
    ⟨sound.update change children parent id, [], behind, ahead, (List.append_nil log).symm,
      .stop behind ahead, divides.update change children cursors id⟩

/-- A walk in a script, between two visits. -/
theorem goes_eachFrom
    (visit : NodeId → Visited (σ × List Moment) → WalkEnd × Visited (σ × List Moment))
    (visits : ∀ id state, Goes container key state.1 state.2.2 (visit id state).2.1
      (visit id state).2.2.2)
    {key' : Nat} (different : key' ≠ key) (other : NodeId) (steps : Nat)
    (state : Visited (σ × List Moment)) :
    Goes container key state.1 state.2.2 (eachFrom visit other key' steps state).2.1
      (eachFrom visit other key' steps state).2.2.2 := by
  induction steps generalizing state with
  | zero => exact .refl _ _ _ _
  | succ steps inductionHypothesis =>
      rw [eachFrom]
      split
      · exact .refl _ _ _ _
      · rename_i child _
        have visited := visits child state
        generalize visit child state = result at visited ⊢
        rcases result with ⟨_ | _ | _, forest, own, log⟩
        · have advanced := goes_update (Cell.advanceCursor key') (fun _ => rfl) (fun _ => rfl)
            (find?_advanceCursor different) container other forest log
          exact (visited.trans advanced).trans
            (inductionHypothesis (forest.update other (Cell.advanceCursor key'), own, log))
        · exact visited
        · exact visited

/-- The number of the next cursor is used up. -/
theorem goes_nextKey (container : NodeId) (key : Nat) (forest : Forest) (log : List Moment) :
    Goes container key forest log { forest with nextKey := forest.nextKey + 1 } log :=
  fun behind ahead sound divides =>
    ⟨⟨sound.nodup, sound.parent, sound.inUse⟩, [], behind, ahead, (List.append_nil log).symm,
      .stop behind ahead, divides.of_same rfl rfl rfl (Nat.le_succ _)⟩

/-- A walk in a script over the children of any container. -/
theorem goes_each {visitor : Visitor (σ × List Moment)}
    (visits : ∀ id state, Goes container key state.1 state.2.2 (visitor id state).2.1
      (visitor id state).2.2.2)
    (steps : Nat) (other : NodeId) (state : Visited (σ × List Moment)) :
    Goes container key state.1 state.2.2 (Forest.each visitor steps other state).2.1
      (Forest.each visitor steps other state).2.2.2 := by
  intro behind ahead sound divides
  have different : state.1.nextKey ≠ key := Nat.ne_of_gt divides.older
  have opened := (goes_nextKey container key state.1 state.2.2).trans
    (goes_update (Cell.openCursor state.1.nextKey) (fun _ => rfl) (fun _ => rfl)
      (find?_openCursor different) container other _ _)
  have walked := opened.trans (goes_eachFrom (visitOnce visitor) visits different other steps
    (_, state.2))
  have closed := walked.trans (goes_update (Cell.closeCursor state.1.nextKey) (fun _ => rfl)
    (fun _ => rfl) (find?_closeCursor different) container other _ _)
  exact closed behind ahead sound divides

theorem goes_follow (container : NodeId) (key steps : Nat) (script : Script σ) (forest : Forest)
    (log : List Moment) :
    Goes container key forest log (script.follow steps forest log).2.1
      (script.follow steps forest log).2.2.2 := by
  induction script generalizing forest log with
  | done reply own => exact .refl _ _ _ _
  | act operation next ofNext =>
      exact ((leads_operation container key forest operation).goes log).trans (ofNext _ _ _ _)
  | each other own visitor next ofVisitor ofNext =>
      have walked : Goes container key forest log _ _ :=
        goes_each (fun id state => ofVisitor id (state.1, state.2.1) state.1 state.2.2) steps
          other (forest, own, log)
      exact walked.trans (ofNext _ _ _ _)

/-! ## The walk over the container -/

/-- Between two visits a cursor is at the first of the children ahead of it. -/
structure Awaits (forest : Forest) (container : NodeId) (key : Nat)
    (behind ahead : List NodeId) : Prop where
  children : forest.children container = behind ++ ahead
  cursor : forest.cursor? container key = some (behind.length : Int)
  inUse : container < forest.size
  older : key < forest.nextKey

/-- At the visit the child counts as behind the cursor. -/
theorem Awaits.visit (awaits : Awaits forest container key behind (node :: ahead)) :
    Divides forest container key (behind ++ [node]) ahead where
  children := by simpa using awaits.children
  cursor := by simpa using awaits.cursor
  inUse := awaits.inUse
  older := awaits.older

theorem Divides.advance (divides : Divides forest container key behind ahead) :
    Awaits (forest.update container (Cell.advanceCursor key)) container key behind ahead where
  children := by
    have same := children_update_of_same forest (Cell.advanceCursor key) (fun _ => rfl) container
      container
    exact same.trans divides.children
  cursor := by
    have isCursor := divides.cursor
    simp only [cursor?, Option.map_eq_some_iff] at isCursor
    obtain ⟨cursor, found, isIndex⟩ := isCursor
    have isKey : cursor.key = key := by simpa using List.find?_some found
    simp [cursor?, cell_update, divides.inUse, find?_advanceCursor_eq_map, found, isKey, isIndex]
  inUse := by simpa using divides.inUse
  older := divides.older

theorem cursorIndex_eq {index : Nat}
    (isCursor : forest.cursor? container key = some (index : Int)) :
    forest.cursorIndex container key = index := by
  simp only [cursor?, Option.map_eq_some_iff] at isCursor
  obtain ⟨cursor, found, isIndex⟩ := isCursor
  simp [cursorIndex, found, isIndex]

/-- A walk that comes to its end has passed over all that was ahead of it. -/
theorem course_eachFrom
    {visit : NodeId → Visited (σ × List Moment) → WalkEnd × Visited (σ × List Moment)}
    (visits : ∀ id state, Goes container key state.1 (state.2.2 ++ [.passed id])
      (visit id state).2.1 (visit id state).2.2.2)
    (steps : Nat) (state : Visited (σ × List Moment)) (sound : state.1.Sound)
    (awaits : Awaits state.1 container key behind ahead)
    (finished : (eachFrom visit container key steps state).1 = .finished) :
    ∃ noted behindEnd, (eachFrom visit container key steps state).2.2.2 = state.2.2 ++ noted ∧
      Course container key behind ahead noted behindEnd [] := by
  induction steps generalizing state behind ahead with
  | zero => cases finished
  | succ steps inductionHypothesis =>
      rw [eachFrom, cursorIndex_eq awaits.cursor, awaits.children] at finished ⊢
      cases ahead with
      | nil => exact ⟨[], behind, by simp, .stop behind []⟩
      | cons child rest =>
          rw [List.getElem?_append_right (Nat.le_refl _), Nat.sub_self, List.getElem?_cons_zero]
            at finished ⊢
          obtain ⟨sound', noted, behind', ahead', isLog, course, divides'⟩ :=
            visits child state _ _ sound awaits.visit
          dsimp only at finished ⊢
          generalize visit child state = result at finished sound' isLog divides' ⊢
          rcases result with ⟨_ | _ | _, forest', own, log⟩
          · dsimp only at isLog
            subst isLog
            obtain ⟨noted', behindEnd, isLog, course'⟩ := inductionHypothesis
              (forest'.update container (Cell.advanceCursor key), own, _)
              (sound'.update (Cell.advanceCursor key) (fun _ => rfl) (fun _ => rfl) container)
              divides'.advance finished
            refine ⟨.passed child :: (noted ++ noted'), behindEnd, ?_,
              .passed (course.append course')⟩
            simpa using isLog
          · cases finished
          · cases finished

/-- A walk starts with all children ahead of it. -/
theorem Awaits.start (inUse : container < forest.size) :
    Awaits ({ forest with nextKey := forest.nextKey + 1 }.update container
      (Cell.openCursor forest.nextKey)) container forest.nextKey []
      (forest.children container) where
  children := children_update_of_same _ (Cell.openCursor forest.nextKey) (fun _ => rfl) container
    container
  cursor := by
    have inUse' : container < { forest with nextKey := forest.nextKey + 1 }.size := inUse
    simp [cursor?, cell_update, inUse', Cell.openCursor]
  inUse := by
    rw [size_update]
    exact inUse
  older := Nat.lt_succ_self _

/-- The moments of a whole walk are a course from the children at its start. -/
theorem course_each (steps : Nat) (scripts : NodeId → Visited σ → Script σ)
    (own : σ) (sound : forest.Sound) (inUse : container < forest.size)
    (finished : (Forest.each (scripted steps scripts) steps container (forest, own, [])).1 =
      .finished) :
    ∃ behindEnd, Course container forest.nextKey [] (forest.children container)
      (Forest.each (scripted steps scripts) steps container (forest, own, [])).2.2.2
      behindEnd [] := by
  have sound' : Sound { forest with nextKey := forest.nextKey + 1 } :=
    ⟨sound.nodup, sound.parent, sound.inUse⟩
  have visits : ∀ id (state : Visited (σ × List Moment)),
      Goes container forest.nextKey state.1 (state.2.2 ++ [.passed id])
        (visitOnce (scripted steps scripts) id state).2.1
        (visitOnce (scripted steps scripts) id state).2.2.2 :=
    fun id state => goes_follow container forest.nextKey steps _ state.1 _
  obtain ⟨noted, behindEnd, isLog, course⟩ := course_eachFrom visits steps (_, own, [])
    (sound'.update (Cell.openCursor forest.nextKey) (fun _ => rfl) (fun _ => rfl) container)
    (Awaits.start inUse) finished
  refine ⟨behindEnd, ?_⟩
  rw [← List.nil_append noted] at course
  exact isLog ▸ course

theorem passes_append (log log' : List Moment) : passes (log ++ log') = passes log ++ passes log' :=
  List.filterMap_append

theorem Divides.mem_ahead (divides : Divides forest container key behind ahead)
    (isChild : node ∈ behind ++ ahead) (isAhead : IsAhead forest container key node) :
    node ∈ ahead := by
  obtain ⟨cursor, isCursor, lt⟩ := isAhead
  rw [divides.cursor, Option.mem_some_iff] at isCursor
  rw [divides.children, ← isCursor] at lt
  refine (List.mem_append.mp isChild).resolve_left fun isBehind => ?_
  have within := List.idxOf_lt_length_iff.mpr isBehind
  rw [List.idxOf_append_of_mem isBehind] at lt
  omega

theorem Divides.mem_behind (divides : Divides forest container key behind ahead)
    (isBehind : IsBehind forest container key node) : node ∈ behind := by
  obtain ⟨cursor, isCursor, le⟩ := isBehind
  rw [divides.cursor, Option.mem_some_iff] at isCursor
  rw [divides.children, ← isCursor] at le
  by_contra notBehind
  rw [List.idxOf_append_of_notMem notBehind] at le
  omega

/-- A child that stays from one moment on is passed once from then on if it is ahead of the
cursor, and not any more if it is behind the cursor. -/
theorem Course.count_passes (course : Course container key behind ahead log behindEnd [])
    (nodup : (behind ++ ahead).Nodup) (isChild : node ∈ behind ++ ahead)
    (isStaying : stays log container node) :
    (passes log).count node = if node ∈ ahead then 1 else 0 := by
  have same : (passes log).filter (· == node) = ahead.filter (· == node) := by
    refine course.filter_passes nodup (fun other isNode => ?_) (fun other isNode => ?_)
    · exact (eq_of_beq isNode).symm ▸ isChild
    · exact (eq_of_beq isNode).symm ▸ isStaying
  rw [List.count_eq_length_filter, same, ← List.count_eq_length_filter]
  have aheadNodup := (List.nodup_append.mp nodup).2.1
  split
  · rename_i isAhead
    exact List.count_eq_one_of_mem aheadNodup isAhead
  · rename_i notAhead
    exact List.count_eq_zero.mpr notAhead

/-- A walk over the children of a container whose visitor edits the container as it likes,
and that is not stopped.  The children that are there at the start and stay are passed
once each, in their order.  A node that is put in later, and stays, is passed once if it
has been put in after the place of the cursor, and is not passed if it has been put in at
that place or before it. -/
theorem each_scripted (steps : Nat) (scripts : NodeId → Visited σ → Script σ)
    (container : NodeId) (forest : Forest) (own : σ) (sound : forest.Sound)
    (inUse : container < forest.size)
    (finished : (Forest.each (scripted steps scripts) steps container (forest, own, [])).1 =
      .finished) :
    let log := (Forest.each (scripted steps scripts) steps container (forest, own, [])).2.2.2
    let children := forest.children container
    (∀ child ∈ children, stays log container child → (passes log).count child = 1) ∧
      (passes log).filter (fun node => children.contains node && stays log container node) =
        children.filter (stays log container) ∧
      ∀ before moment after node, log = before ++ .changed moment :: after →
        node ∉ children → isMissing before container node →
        node ∈ moment.children container → stays after container node →
          (IsAhead moment container forest.nextKey node → (passes log).count node = 1) ∧
            (IsBehind moment container forest.nextKey node → node ∉ passes log) := by
  intro log children
  obtain ⟨behindEnd, course⟩ := course_each steps scripts own sound inUse finished
  have nodup : ([] ++ children).Nodup := sound.nodup container
  refine ⟨fun child isChild isStaying => ?_, ?_, ?_⟩
  · rw [course.count_passes nodup isChild isStaying, if_pos isChild]
  · refine (course.filter_passes nodup (fun node isIn => ?_) (fun node isIn => ?_)).trans ?_
    · exact List.contains_iff_mem.mp (Bool.and_eq_true_iff.mp isIn).1
    · exact (Bool.and_eq_true_iff.mp isIn).2
    · refine List.filter_congr fun child isChild => ?_
      simp [isChild, children]
  · intro before moment after node isLog isNew missing isChild isStaying
    have isLog' : log = (Forest.each (scripted steps scripts) steps container
      (forest, own, [])).2.2.2 := rfl
    rw [← isLog', isLog] at course
    obtain ⟨behind, ahead, first, second⟩ := course.exists_of_append
    have notBefore := first.not_mem_passes isNew missing
    cases second with
    | changed slides sound' divides others =>
        rename_i behind' ahead'
        have nodup' := divides.children ▸ sound'.nodup container
        rw [divides.children] at isChild
        have count : (passes log).count node = if node ∈ ahead' then 1 else 0 := by
          rw [isLog, passes_append, List.count_append, List.count_eq_zero.mpr notBefore,
            Nat.zero_add]
          exact others.count_passes nodup' isChild isStaying
        refine ⟨fun isAhead => ?_, fun isBehind => ?_⟩
        · rw [count, if_pos (divides.mem_ahead isChild isAhead)]
        · have notAhead : node ∉ ahead' := fun isAhead =>
            (List.nodup_append.mp nodup').2.2 node (divides.mem_behind isBehind) node isAhead rfl
          rw [if_neg notAhead] at count
          exact List.count_eq_zero.mp count

/-- A container with two nodes. -/
def pairForest : Forest :=
  { cells := #[{ kind := .container, children := [1, 2] }, { parent := some 0 },
      { parent := some 0 }] }

/-- At the first node, puts one new node in after it and another one in front of it. -/
def surround (node : NodeId) (_ : Visited Unit) : Script Unit :=
  if node = 1 then
    .act (.create .generic none) fun _ _ => .act (.insertAfter 0 1 [3]) fun _ _ =>
      .act (.create .generic none) fun _ _ => .act (.prepend 0 [4]) fun _ _ => .done .goOn ()
  else .done .goOn ()

/-- The walk over the two nodes that puts others in around the first one. -/
def surroundWalk : WalkEnd × Visited (Unit × List Moment) :=
  Forest.each (scripted 4 surround) 4 0 (pairForest, (), [])

theorem each_scripted_pairForest :
    pairForest.Sound ∧ 0 < pairForest.size ∧ surroundWalk.1 = .finished ∧
      (∀ child ∈ pairForest.children 0, stays surroundWalk.2.2.2 0 child →
        (passes surroundWalk.2.2.2).count child = 1) ∧
      (passes surroundWalk.2.2.2).filter (fun node =>
          (pairForest.children 0).contains node && stays surroundWalk.2.2.2 0 node) =
        (pairForest.children 0).filter (stays surroundWalk.2.2.2 0) ∧
      ∀ before moment after node, surroundWalk.2.2.2 = before ++ .changed moment :: after →
        node ∉ pairForest.children 0 → isMissing before 0 node →
        node ∈ moment.children 0 → stays after 0 node →
          (IsAhead moment 0 pairForest.nextKey node → (passes surroundWalk.2.2.2).count node = 1) ∧
            (IsBehind moment 0 pairForest.nextKey node → node ∉ passes surroundWalk.2.2.2) := by
  have sound : pairForest.Sound := by decide
  have inUse : 0 < pairForest.size := by decide
  have finished : surroundWalk.1 = .finished := by decide
  exact ⟨sound, inUse, finished, each_scripted 4 surround 0 pairForest () sound inUse finished⟩

/-- The node after the first one is passed, the node in front of it is not. -/
example : passes surroundWalk.2.2.2 = [1, 3, 2] := by decide

end Forest

end ContainerPreview
