import ContainerPreview.Proofs.Toggle.Outside
import ContainerPreview.Proofs.Worker.Visits

/-!
# The walk of a pass

While a pass walks over the children of a block, the cursor of the block is at the next child, and
the children before it are done with.  What a visit puts after a child comes next.  The walk comes
to its end, and leaves what the walk over the tree leaves.
-/

namespace ContainerPreview

open Tagged

/-! ## Places -/

/-- The entries of the blocks around a node, the innermost first, make its place. -/
def Leads : List Entry → Option NodeId → Place → Prop
  | [], parent, place => parent = none ∧ place = .outside
  | entry :: outer, parent, place =>
      parent = some entry.id ∧ ∃ head place', entry.cell.kind = .block head ∧
        place = place'.within entry.cell.source head ∧ Leads outer entry.cell.parent place'

namespace Stage

variable {stage : Stage} {id : NodeId} {place : Place} {spine extra : List Entry} {entry : Entry}

theorem isInQuery_of_leads {levels : Nat} (areIn : ∀ entry ∈ spine, entry.IsIn stage)
    (leads : Leads spine (stage.1.parent? id) place) (enough : spine.length < levels) :
    stage.1.isInQuery levels id = place.insideQuery := by
  induction spine generalizing id place levels with
  | nil =>
      obtain ⟨isTop, rfl⟩ := leads
      cases levels with
      | zero => exact absurd enough (Nat.not_lt_zero _)
      | succ levels =>
          rw [Forest.isInQuery, isTop]
          rfl
  | cons entry outer ofOuter =>
      obtain ⟨isParent, head, place', isBlock, rfl, leads⟩ := leads
      obtain ⟨isIn, areIn⟩ := List.forall_mem_cons.mp areIn
      have isHead : stage.1.head? entry.id = some head := by
        rw [Forest.head?, isIn.cell, isBlock, Kind.head?_block]
      cases levels with
      | zero => exact absurd enough (Nat.not_lt_zero _)
      | succ levels =>
          rw [← congrArg Cell.parent isIn.cell] at leads
          rw [Forest.isInQuery, isParent]
          dsimp only
          rw [isHead, ofOuter areIn leads (Nat.lt_of_succ_lt_succ enough)]
          exact Bool.or_comm ..

/-- The blocks around a node tell its place. -/
theorem isPlace_of_leads {parent : Option NodeId} (holds : stage.Holds (extra ++ entry :: spine))
    (isParent : stage.1.parent? id = parent) (leads : Leads (entry :: spine) parent place) :
    Step.IsPlace stage id entry.cell.source place := by
  subst isParent
  have holdsSpine := holds.right
  have isHead := leads
  obtain ⟨isParent, head, place', isBlock, rfl, -⟩ := isHead
  have isIn := holdsSpine.isIn entry List.mem_cons_self
  refine ⟨isInQuery_of_leads holdsSpine.isIn leads (Nat.lt_succ_of_le ?_), ?_, rfl⟩
  · have within : (entry :: spine).map Entry.id ⊆ List.range stage.1.size := fun id member =>
      List.mem_range.mpr (holdsSpine.inUse_of_mem member)
    simpa using (holdsSpine.nodup.subperm within).length_le
  · rw [Forest.isInKeyframes, isParent]
    dsimp only [Option.any]
    rw [Forest.head?, isIn.cell, isBlock, Kind.head?_block]
    rfl

end Stage

/-! ## Walking over a row -/

/-- What the walk of a pass works on. -/
abbrev Walked := Forest.Visited (List NodeId × Option EditError)

/-- A stage of a walk that nothing has gone wrong in. -/
def Stage.walked (stage : Stage) : Walked :=
  (stage.1, stage.2, none)

namespace Worker

open Forest

/-- The walk goes below a node. -/
def enter (worker : Worker) (calls steps : Nat) (id : NodeId) (state : Walked) :
    WalkEnd × Walked :=
  if (state.1.cell id).kind.isContainer then Forest.walk (worker.visitor calls) steps id state
  else (.finished, state)

/-- The walk visits a node and goes below it. -/
def goOver (worker : Worker) (calls steps : Nat) (id : NodeId) (state : Walked) :
    WalkEnd × Walked :=
  match visitOnce (worker.visitor calls) id state with
  | (.finished, state) => worker.enter calls steps id state
  | ended => ended

theorem walk_succ (worker : Worker) (calls steps : Nat) (id : NodeId) (state : Walked) :
    Forest.walk (worker.visitor calls) (steps + 1) id state =
      eachWith (worker.goOver calls steps) (steps + 1) id state := by
  rw [Forest.walk]
  congr 1
  funext id state
  rw [goOver]
  rcases visitOnce (worker.visitor calls) id state with ⟨_ | _ | _, _⟩ <;> rfl

end Worker

/-- A walk has been broken off since the stack does not reach deep enough. -/
structure IsBroken (ended : Forest.WalkEnd × Walked) : Prop where
  stopped : ended.1 = .stopped
  failure : ended.2.2.2 = some .tooDeep

namespace IsBroken

variable {ended ended' : Forest.WalkEnd × Walked}

theorem of_eq (broken : IsBroken ended) (same : ended' = ended) : IsBroken ended' :=
  same ▸ broken

theorem exists_eq (broken : IsBroken ended) : ∃ left, ended = (.stopped, left) :=
  ⟨_, Prod.ext broken.stopped rfl⟩

end IsBroken

/-- The entry with the cursor of a walk at an index. -/
def Entry.withCursor (entry : Entry) (key index : Nat) : Entry :=
  { entry with cell := { entry.cell with cursors := [⟨key, index⟩] } }

/-- The entries of a block under a walk, and of its children: those that the walk is done with, and
those that are left. -/
def Entry.standing (holder : Entry) (key : Nat) (done left : List Tagged) : List Entry :=
  (holder.withCursor key done.length).part [] [] (done ++ left)

namespace Step

open Stage Toggle Forest

variable {stage stage' stage'' : Stage} {holder : Entry} {key : Nat}
  {done done' done'' left left' left'' : List Tagged} {worker : Worker}

/-- With a stack that reaches so deep into the values a walk comes to its end, and with any other it
is broken off. -/
def Finishes (deep : Nat) (walk : Nat → WalkEnd × Walked) (stage' : Stage) : Prop :=
  Needs deep (fun calls => walk calls = (.finished, stage'.walked)) fun calls =>
    IsBroken (walk calls)

/-- The walk over the children of a block gets from one stage to another. -/
structure Moves (worker : Worker) (holder : Entry) (key : Nat) (stage stage' : Stage)
    (done left done' left' : List Tagged) : Prop where
  runs : ∃ count deep bound, ∀ steps, bound ≤ steps → ∀ more, Needs deep
    (fun calls =>
      eachFrom (worker.goOver calls steps) holder.id key (more + count) stage.walked =
        eachFrom (worker.goOver calls steps) holder.id key more stage'.walked)
    fun calls =>
      IsBroken (eachFrom (worker.goOver calls steps) holder.id key (more + count) stage.walked)
  reshapes : Reshapes stage stage' (holder.standing key done left) (holder.standing key done' left')

namespace Moves

theorem refl (holds : stage.Holds (holder.standing key done left)) :
    Moves worker holder key stage stage done left done left :=
  ⟨⟨0, 0, 0, fun _ _ _ => .of_forall fun _ => rfl⟩, .refl holds⟩

theorem trans (first : Moves worker holder key stage stage' done left done' left')
    (second : Moves worker holder key stage' stage'' done' left' done'' left'') :
    Moves worker holder key stage stage'' done left done'' left'' := by
  obtain ⟨count, deep, bound, runs⟩ := first.runs
  obtain ⟨count', deep', bound', runs'⟩ := second.runs
  refine ⟨⟨count' + count, max deep deep', max bound bound', fun steps enough more => ?_⟩,
    first.reshapes.trans second.reshapes⟩
  have here := runs steps (le_of_max_le_left enough) (more + count')
  have next := runs' steps (le_of_max_le_right enough) more
  rw [← Nat.add_assoc]
  exact here.both next (fun _ moved moved' => moved.trans moved') (fun _ broken => broken)
    fun _ moved broken => broken.of_eq moved

end Moves

theorem parent?_eq {parent : Option NodeId} {tree : Tagged}
    (holds : stage.Holds (tree.entries parent)) : stage.1.parent? tree.id = parent := by
  cases tree <;> exact congrArg Cell.parent (holds.isIn _ List.mem_cons_self).cell

/-- The child that the walk is at is the first one that is left. -/
theorem getElem?_cursorIndex (holds : stage.Holds (holder.standing key done left)) :
    (stage.1.children holder.id)[stage.1.cursorIndex holder.id key]? =
      left.head?.map Tagged.id := by
  have isHolder : stage.1.cell holder.id = ((holder.withCursor key done.length).withChildren
      ([] ++ (done ++ left).map Tagged.id ++ [])).cell :=
    (holds.isIn _ List.mem_cons_self).cell
  have areChildren : stage.1.children holder.id = (done ++ left).map Tagged.id := by
    rw [children, isHolder]
    simp [Entry.withChildren]
  have isIndex : stage.1.cursorIndex holder.id key = done.length := by
    rw [cursorIndex, isHolder]
    simp [Entry.withChildren, Entry.withCursor]
  rw [areChildren, isIndex, List.getElem?_map, List.getElem?_append_right (Nat.le_refl _),
    Nat.sub_self, List.head?_eq_getElem?]

/-- The cursor moves on. -/
theorem reshapes_advance {tree : Tagged}
    (holds : stage.Holds (holder.standing key done (tree :: left))) :
    Reshapes stage (stage.1.update holder.id (Cell.advanceCursor key), stage.2)
      (holder.standing key done (tree :: left)) (holder.standing key (done ++ [tree]) left) := by
  have advanced := (reshapes_update holds.head (Cell.advanceCursor key) (fun _ => rfl)
    (fun _ => rfl) rfl).frame _ holds
  have sameRow : done ++ [tree] ++ left = done ++ tree :: left := by simp
  have isAdvanced : holder.standing key (done ++ [tree]) left =
      [{ (holder.withCursor key done.length).withChildren
          ([] ++ (done ++ tree :: left).map Tagged.id ++ []) with
          cell := Cell.advanceCursor key ((holder.withCursor key done.length).withChildren
            ([] ++ (done ++ tree :: left).map Tagged.id ++ [])).cell }] ++
        entriesIn (some holder.id) (done ++ tree :: left) := by
    rw [Entry.standing, Entry.part, sameRow]
    simp [Entry.withCursor, Entry.withChildren, Cell.advanceCursor]
  rw [isAdvanced]
  exact advanced

theorem visitOnce_of_ok {calls : Nat} {id : NodeId}
    (visited : (worker.visit id).apply calls stage = (.ok (), stage')) :
    visitOnce (worker.visitor calls) id stage.walked = (.finished, stage'.walked) := by
  have isVisited : worker.visitor calls id stage.walked = (.goOn, stage'.walked) := by
    rw [Worker.visitor, walked]
    simp only [visited]
    rfl
  rw [visitOnce, isVisited]
  rfl

/-- A visit that the stack does not reach deep enough for breaks off the walk. -/
theorem isBroken_visitOnce {calls : Nat} {id : NodeId}
    (failed : ((worker.visit id).apply calls stage).1 = .error .tooDeep) :
    IsBroken (visitOnce (worker.visitor calls) id stage.walked) := by
  obtain ⟨⟨forest, settled⟩, visited⟩ : ∃ left,
      (worker.visit id).apply calls stage = (.error .tooDeep, left) := ⟨_, Prod.ext failed rfl⟩
  have isVisited : worker.visitor calls id stage.walked =
      (.stop, forest, settled, some .tooDeep) := by
    rw [Worker.visitor, walked]
    simp only [visited]
  rw [visitOnce, isVisited]
  exact ⟨rfl, rfl⟩

theorem goOver_of_finished {calls steps : Nat} {id : NodeId} {state state' : Walked}
    (visited : visitOnce (worker.visitor calls) id state = (.finished, state')) :
    worker.goOver calls steps id state = worker.enter calls steps id state' := by
  rw [Worker.goOver, visited]

theorem isBroken_goOver {calls steps : Nat} {id : NodeId} {state : Walked}
    (broken : IsBroken (visitOnce (worker.visitor calls) id state)) :
    IsBroken (worker.goOver calls steps id state) := by
  obtain ⟨left, visited⟩ := broken.exists_eq
  rw [visited] at broken
  rw [Worker.goOver, visited]
  exact broken

theorem eachFrom_of_finished {visit : NodeId → Walked → WalkEnd × Walked} {id child : NodeId}
    {more : Nat} (isChild : (stage.walked.1.children id)[stage.walked.1.cursorIndex id key]? =
      some child) (visited : visit child stage.walked = (.finished, stage'.walked)) :
    eachFrom visit id key (more + 1) stage.walked = eachFrom visit id key more
      (Stage.walked (stage'.1.update id (Cell.advanceCursor key), stage'.2)) := by
  rw [eachFrom, isChild]
  dsimp only
  rw [visited]
  rfl

theorem isBroken_eachFrom {visit : NodeId → Walked → WalkEnd × Walked} {id child : NodeId}
    {more : Nat} (isChild : (stage.walked.1.children id)[stage.walked.1.cursorIndex id key]? =
      some child) (broken : IsBroken (visit child stage.walked)) :
    IsBroken (eachFrom visit id key (more + 1) stage.walked) := by
  obtain ⟨left, visited⟩ := broken.exists_eq
  rw [visited] at broken
  rw [eachFrom, isChild]
  dsimp only
  rw [visited]
  exact broken

/-- The walk goes over a node by visiting it and going below it. -/
theorem finishes_goOver {deep deep' steps : Nat} {id : NodeId}
    (visits : Ends deep (worker.visit id) stage () stage')
    (enters : Finishes deep' (fun calls => worker.enter calls steps id stage'.walked) stage'') :
    Finishes (max deep deep') (fun calls => worker.goOver calls steps id stage.walked) stage'' :=
  visits.both enters
    (fun _ visited entered => (goOver_of_finished (visitOnce_of_ok visited)).trans entered)
    (fun _ failed => isBroken_goOver (isBroken_visitOnce failed))
    fun _ visited broken => broken.of_eq (goOver_of_finished (visitOnce_of_ok visited))

/-- Going below trees that are not too high succeeds and leaves what the walk over the trees
leaves. -/
def EntersTo (worker : Worker) (levels : Nat) : Prop :=
  ∀ {stage : Stage} {parent place} {tree : Tagged} {spine : List Entry}, tree.node.height ≤ levels →
    stage.Holds (tree.entries parent ++ spine) → Leads spine parent place →
      ∃ deep bound stage' tree', (∀ steps, bound ≤ steps →
          Finishes deep (fun calls => worker.enter calls steps tree.id stage.walked) stage') ∧
        Reshapes stage stage' (tree.entries parent) (Tagged.entries parent tree') ∧
          tree'.id = tree.id ∧
            tree'.node = (worker.toggle.walkBelow levels place tree.node).value

section Child

variable {levels : Nat} {tree : Tagged} {rest : List Tagged} {spine : List Entry} {head : Head}
  {place : Place}

/-- The blocks around the children of a block. -/
theorem leads_inside (isBlock : holder.cell.kind = .block head)
    (leads : Leads spine holder.cell.parent place) (index : Nat) (ids : List NodeId) :
    Leads ((holder.withCursor key index).withChildren ids :: spine) (some holder.id)
      (place.within holder.cell.source head) :=
  ⟨rfl, head, place, isBlock, rfl, leads⟩

/-- A child that a walk is at is visited. -/
theorem visits_child (within : tree.node.height ≤ worker.levels)
    (isBlock : holder.cell.kind = .block head) (leads : Leads spine holder.cell.parent place)
    (holds : stage.Holds (holder.standing key done (tree :: rest) ++ spine)) :
    let visited := (worker.toggle.visit (place.within holder.cell.source head) tree.node).value
    ∃ deep stage' tree' added, Ends deep (worker.visit tree.id) stage () stage' ∧
      Reshapes stage stage' (holder.standing key done (tree :: rest))
        (holder.standing key done (tree' :: (added ++ rest))) ∧
        tree'.id = tree.id ∧ tree'.node = visited.node ∧ nodesOf added = visited.after := by
  intro visited
  let block := holder.withCursor key done.length
  have holdsRow : stage.Holds (block.part [] [] (done ++ tree :: rest)) := holds.left
  have holdsRight : stage.Holds (block.part ([] ++ done.map Tagged.id) [] (tree :: rest)) :=
    (holdsRow.perm (Entry.part_append_perm ..)).left
  have holdsTree := (Entry.part_append block _ _ [tree] rest ▸ holdsRight).left
  have isPlace : IsPlace stage tree.id block.cell.source
      (place.within holder.cell.source head) := by
    have holdsSpine : stage.Holds (entriesIn (some holder.id) (done ++ tree :: rest) ++
        block.withChildren ([] ++ (done ++ tree :: rest).map Tagged.id ++ []) :: spine) :=
      holds.perm List.perm_middle.symm
    have placed := isPlace_of_leads holdsSpine (parent?_eq holdsTree.ofSingle)
      (leads_inside isBlock leads _ _)
    exact placed
  have isContainer : block.cell.kind.isContainer := by
    change holder.cell.kind.isContainer = true
    rw [isBlock]
    rfl
  have cursors : ∀ cursor ∈ block.cell.cursors,
      cursor.index ≤ ([] ++ done.map Tagged.id).length := by
    simp [block, Entry.withCursor]
  obtain ⟨_, _, stage', _, visits, reshapes, _, rfl, _, rfl, _, rfl, tree', added, rfl, isChild⟩ :=
    ((turns_visit within isContainer cursors isPlace holdsTree).onLeft rest holdsRight).onRight done
      holdsRow
  exact ⟨_, stage', tree', added, visits, reshapes, isChild⟩

/-- The walk goes below a child. -/
theorem enters_child (entersTo : EntersTo worker levels) (within : tree.node.height ≤ levels)
    (isBlock : holder.cell.kind = .block head) (leads : Leads spine holder.cell.parent place)
    (holds : stage.Holds (holder.standing key done (tree :: rest) ++ spine)) :
    ∃ deep bound stage' tree', (∀ steps, bound ≤ steps →
        Finishes deep (fun calls => worker.enter calls steps tree.id stage.walked) stage') ∧
      Reshapes stage stage' (holder.standing key done (tree :: rest))
        (holder.standing key done (tree' :: rest)) ∧
        tree'.node = (worker.toggle.walkBelow levels (place.within holder.cell.source head)
          tree.node).value := by
  let block := holder.withCursor key done.length
  have parts := Entry.part_middle_perm block [] [] done rest
  have holdsAll := holds.perm ((parts tree).append_right spine)
  rw [List.append_assoc] at holdsAll
  have holdsBelow := holdsAll.sublist
    (((List.sublist_append_right _ spine).cons_cons _).append_left (tree.entries (some holder.id)))
  obtain ⟨_, bound, stage', tree', enters, reshapes, sameId, isNode⟩ :=
    entersTo within holdsBelow (leads_inside isBlock leads _ _)
  have sameIds : (done ++ tree' :: rest).map Tagged.id = (done ++ tree :: rest).map Tagged.id := by
    simp [sameId]
  exact ⟨_, bound, stage', tree', enters, (reshapes.frame _ (holds.left.perm (parts tree))).perm
    (parts tree).symm (sameIds ▸ (parts tree').symm), isNode⟩

/-- The walk visits one child, goes below it, and moves on. -/
theorem moves_step (entersTo : EntersTo worker levels) (atMost : levels ≤ worker.levels)
    (within : tree.node.height ≤ levels) (isBlock : holder.cell.kind = .block head)
    (leads : Leads spine holder.cell.parent place)
    (holds : stage.Holds (holder.standing key done (tree :: rest) ++ spine)) :
    let inside := place.within holder.cell.source head
    let visited := (worker.toggle.visit inside tree.node).value
    ∃ stage' tree' added,
      Moves worker holder key stage stage' done (tree :: rest) (done ++ [tree']) (added ++ rest) ∧
        tree'.node = (worker.toggle.walkBelow levels inside visited.node).value ∧
          nodesOf added = visited.after := by
  intro inside visited
  obtain ⟨deep, stage₁, tree₁, added, visits, reshapes₁, sameId, isNode₁, areAdded⟩ :=
    visits_child (within.trans atMost) isBlock leads holds
  have isLower : tree₁.node.height ≤ levels := by
    rw [isNode₁]
    exact ((worker.toggle.height_visit_le inside tree.node).1).trans within
  obtain ⟨deep', bound, stage₂, tree₂, enters, reshapes₂, isNode₂⟩ :=
    enters_child entersTo isLower isBlock leads (reshapes₁.frame spine holds).holds
  have reshapes₃ := reshapes_advance reshapes₂.holds
  refine ⟨_, tree₂, added, ⟨⟨1, max deep deep', bound, fun steps enough more => ?_⟩,
    (reshapes₁.trans reshapes₂).trans reshapes₃⟩, ?_, areAdded⟩
  · have isChild : (stage.walked.1.children holder.id)[stage.walked.1.cursorIndex holder.id key]? =
        some tree.id := getElem?_cursorIndex holds.left
    exact (finishes_goOver visits (sameId ▸ enters steps enough)).mono
      (fun _ isOver => eachFrom_of_finished isChild isOver) fun _ broken =>
        isBroken_eachFrom isChild broken
  · rw [isNode₂, isNode₁]

end Child

/-- The walk goes over several children, if visits do nothing to them. -/
theorem moves_added {levels : Nat} (entersTo : EntersTo worker levels)
    (atMost : levels ≤ worker.levels) {added rest : List Tagged} {spine : List Entry}
    {head : Head} {place : Place} (within : heightIn (nodesOf added) ≤ levels)
    (unchanged : ∀ node ∈ nodesOf added, ∀ place, worker.toggle.visit place node = pure { node })
    (isBlock : holder.cell.kind = .block head) (leads : Leads spine holder.cell.parent place)
    (holds : stage.Holds (holder.standing key done (added ++ rest) ++ spine)) :
    ∃ stage' added',
      Moves worker holder key stage stage' done (added ++ rest) (done ++ added') rest ∧
      nodesOf added' = (nodesOf added).map fun node =>
        (worker.toggle.walkBelow levels (place.within holder.cell.source head) node).value := by
  induction added generalizing stage done with
  | nil => exact ⟨stage, [], by simpa using Moves.refl holds.left, rfl⟩
  | cons tree added ofAdded =>
      obtain ⟨here, later⟩ := Nat.max_le.mp within
      obtain ⟨isUnchanged, areUnchanged⟩ := List.forall_mem_cons.mp unchanged
      obtain ⟨stage₁, tree', further, moves₁, isNode, noFurther⟩ :=
        moves_step entersTo atMost here isBlock leads holds
      rw [isUnchanged] at isNode noFurther
      obtain rfl : further = [] := by simpa [nodesOf_eq_map] using noFurther
      obtain ⟨stage₂, added', moves₂, areNodes⟩ :=
        ofAdded later areUnchanged (moves₁.reshapes.frame spine holds).holds
      rw [List.append_assoc] at moves₂
      refine ⟨stage₂, tree' :: added', moves₁.trans moves₂, ?_⟩
      rw [nodesOf_cons, nodesOf_cons, List.map_cons, isNode, areNodes]
      rfl

/-- The walk goes over the children that are left. -/
theorem moves_row {levels : Nat} (entersTo : EntersTo worker levels)
    (atMost : levels ≤ worker.levels) {spine : List Entry} {head : Head} {place : Place}
    (within : heightIn (nodesOf left) ≤ levels) (isBlock : holder.cell.kind = .block head)
    (leads : Leads spine holder.cell.parent place)
    (holds : stage.Holds (holder.standing key done left ++ spine)) :
    ∃ stage' row, Moves worker holder key stage stage' done left (done ++ row) [] ∧
      nodesOf row = (worker.toggle.walkNodes (worker.toggle.walkBelow levels)
        (place.within holder.cell.source head) (nodesOf left)).value := by
  induction left generalizing stage done with
  | nil => exact ⟨stage, [], by simpa using Moves.refl holds.left, rfl⟩
  | cons tree rest ofRest =>
      obtain ⟨here, later⟩ := Nat.max_le.mp within
      obtain ⟨stage₁, tree', added, moves₁, isNode, areAdded⟩ :=
        moves_step entersTo atMost here isBlock leads holds
      have holds₁ := (moves₁.reshapes.frame spine holds).holds
      have lower : heightIn (nodesOf added) ≤ levels := by
        rw [areAdded]
        exact ((worker.toggle.height_visit_le _ tree.node).2).trans here
      obtain ⟨stage₂, added', moves₂, areAdded'⟩ := moves_added entersTo atMost lower
        (fun node member place => worker.toggle.visit_of_mem_after (areAdded ▸ member) place)
        isBlock leads holds₁
      obtain ⟨stage₃, row, moves₃, areNodes⟩ :=
        ofRest later (moves₂.reshapes.frame spine holds₁).holds
      have moves := (moves₁.trans moves₂).trans moves₃
      rw [List.append_assoc, List.append_assoc, List.singleton_append] at moves
      refine ⟨stage₃, tree' :: added' ++ row, moves, ?_⟩
      rw [nodesOf_append, nodesOf_cons, areNodes, areAdded', areAdded, isNode, nodesOf_cons,
        value_walkNodes_cons, value_visitBelow]

/-! ## Going below a block -/

section Block

variable {parent : Option NodeId} {id : NodeId} {source : Option String} {head : Head}
  {settled : Bool} {children row : List Tagged}

/-- A walk puts a cursor into a block. -/
theorem reshapes_open (key nextKey : Nat)
    (holds : stage.Holds (Tagged.entries parent (.block id source head settled children))) :
    Reshapes stage
      ({ stage.1 with nextKey }.update id (Cell.openCursor key), stage.2)
      (Tagged.entries parent (.block id source head settled children))
      ((holderOf parent id source head settled).standing key [] children) := by
  have rekeyed : Stage.Holds ({ stage.1 with nextKey }, stage.2)
      (Tagged.entries parent (.block id source head settled children)) :=
    ⟨{ holds.linked with }, holds.inUse, fun entry member => ⟨(holds.isIn entry member).inUse,
      (holds.isIn entry member).cell, (holds.isIn entry member).settled⟩, holds.nodup⟩
  have opened := (reshapes_update rekeyed.head (Cell.openCursor key) (fun _ => rfl) (fun _ => rfl)
    rfl).frame _ rekeyed
  let top := (Tagged.block id source head settled children).top parent
  have isOpened : [{ top with cell := Cell.openCursor key top.cell }] ++
      entriesIn (some id) children = (holderOf parent id source head settled).standing key []
        children := by
    simp [top, Tagged.top, Entry.standing, Entry.part, Entry.withChildren, Entry.withCursor,
      holderOf, Cell.openCursor]
  rw [← isOpened]
  exact ⟨opened.holds, opened.grows, fun id inUse notHere =>
    ⟨(opened.others id inUse notHere).cell, (opened.others id inUse notHere).settled⟩, opened.fresh⟩

/-- A walk takes its cursor out of a block again. -/
theorem reshapes_close
    (holds : stage.Holds ((holderOf parent id source head settled).standing key row [])) :
    Reshapes stage (stage.1.update id (Cell.closeCursor key), stage.2)
      ((holderOf parent id source head settled).standing key row [])
      (Tagged.entries parent (.block id source head settled row)) := by
  have closed := (reshapes_update holds.head (Cell.closeCursor key) (fun _ => rfl) (fun _ => rfl)
    rfl).frame _ holds
  let top := ((holderOf parent id source head settled).withCursor key row.length).withChildren
    ([] ++ (row ++ []).map Tagged.id ++ [])
  have isClosed : [{ top with cell := Cell.closeCursor key top.cell }] ++
      entriesIn (some id) (row ++ []) =
        Tagged.entries parent (.block id source head settled row) := by
    simp [top, Tagged.entries, Entry.withChildren, Entry.withCursor, holderOf, Cell.closeCursor]
  rw [← isClosed]
  exact closed

/-- Going below a block is going over its children with a cursor. -/
theorem finishes_block {stage₁ : Stage} {count deep bound steps : Nat}
    (holds : stage.Holds (Tagged.entries parent (.block id source head settled children)))
    (holds₁ : stage₁.Holds
      ((holderOf parent id source head settled).standing stage.1.nextKey row []))
    (runs : ∀ steps, bound ≤ steps → ∀ more,
      let opened := Stage.walked ({ stage.1 with nextKey := stage.1.nextKey + 1 }.update id
        (Cell.openCursor stage.1.nextKey), stage.2)
      Needs deep
        (fun calls =>
          eachFrom (worker.goOver calls steps) id stage.1.nextKey (more + count) opened =
            eachFrom (worker.goOver calls steps) id stage.1.nextKey more stage₁.walked)
        fun calls =>
          IsBroken (eachFrom (worker.goOver calls steps) id stage.1.nextKey (more + count) opened))
    (enough : max bound count + 1 ≤ steps) :
    Finishes deep (fun calls => worker.enter calls steps id stage.walked)
      (stage₁.1.update id (Cell.closeCursor stage.1.nextKey), stage₁.2) := by
  have isKind : (stage.walked.1.cell id).kind = .block head :=
    congrArg Cell.kind (holds.isIn _ List.mem_cons_self).cell
  obtain ⟨further, rfl⟩ := Nat.exists_eq_add_of_le enough
  have isLast : (stage₁.walked.1.children id)[stage₁.walked.1.cursorIndex id
      stage.1.nextKey]? = none := getElem?_cursorIndex holds₁
  have sameSteps : max bound count + 1 + further = max bound count + further + 1 := by omega
  have sameCount : max bound count + further + 1 =
      max bound count - count + further + 1 + count := by omega
  have isEntered : ∀ calls, worker.enter calls (max bound count + 1 + further) id stage.walked =
      eachWith (worker.goOver calls (max bound count + further))
        (max bound count - count + further + 1 + count) id stage.walked := fun calls => by
    have isContainer : (Kind.block head).isContainer := rfl
    rw [Worker.enter, isKind, if_pos isContainer, sameSteps, Worker.walk_succ, sameCount]
  refine (runs (max bound count + further) (by omega) (max bound count - count + further + 1)).mono
    (fun calls moved => (isEntered calls).trans ?_) fun calls broken =>
      IsBroken.of_eq ?_ (isEntered calls)
  · rw [eachFrom, isLast] at moved
    exact congrArg (fun ended : WalkEnd × Walked =>
      (ended.1, ended.2.1.update id (Cell.closeCursor stage.1.nextKey), ended.2.2)) moved
  · exact ⟨broken.stopped, broken.failure⟩

/-- Going below a block ends, and leaves of its children what the walk over them leaves. -/
theorem enters_children {levels : Nat} (entersTo : EntersTo worker levels)
    (atMost : levels ≤ worker.levels) {spine : List Entry} {place : Place}
    (within : heightIn (nodesOf children) ≤ levels)
    (holds : stage.Holds (Tagged.entries parent (.block id source head settled children) ++ spine))
    (leads : Leads spine parent place) :
    ∃ deep bound stage' row, (∀ steps, bound ≤ steps →
        Finishes deep (fun calls => worker.enter calls steps id stage.walked) stage') ∧
      Reshapes stage stage' (Tagged.entries parent (.block id source head settled children))
        (Tagged.entries parent (.block id source head settled row)) ∧
        nodesOf row = (worker.toggle.walkNodes (worker.toggle.walkBelow levels)
          (place.within source head) (nodesOf children)).value := by
  have opened := reshapes_open stage.1.nextKey (stage.1.nextKey + 1) holds.left
  obtain ⟨stage₁, row, moves, areNodes⟩ :=
    moves_row entersTo atMost within rfl leads (opened.frame spine holds).holds
  have closed := reshapes_close moves.reshapes.holds
  obtain ⟨count, deep, bound, runs⟩ := moves.runs
  exact ⟨deep, max bound count + 1, _, row, fun steps enough =>
    finishes_block holds.left moves.reshapes.holds runs enough,
    (opened.trans moves.reshapes).trans closed, areNodes⟩

end Block

/-- There is nothing below a leaf. -/
theorem enters_leaf {parent : Option NodeId} {id : NodeId} {source : Option String} {content : Leaf}
    {levels : Nat} (holds : stage.Holds (Tagged.entries parent (.leaf id source content)))
    (place : Place) :
    ∃ deep bound stage' tree', (∀ steps, bound ≤ steps →
        Finishes deep (fun calls => worker.enter calls steps id stage.walked) stage') ∧
      Reshapes stage stage' (Tagged.entries parent (.leaf id source content))
        (Tagged.entries parent tree') ∧
        tree'.id = id ∧
          tree'.node = (worker.toggle.walkBelow levels place (.leaf source content)).value := by
  have isKind : (stage.walked.1.cell id).kind = .leaf content :=
    congrArg Cell.kind (holds.isIn _ List.mem_cons_self).cell
  refine ⟨0, 0, stage, .leaf id source content, fun steps _ => .of_forall fun calls => ?_,
    .refl holds, rfl, ?_⟩
  · dsimp only
    rw [Worker.enter, isKind]
    rfl
  · rw [walkBelow_leaf]
    rfl

/-- Going below a tree ends, and leaves what the walk over the tree leaves. -/
theorem entersTo (worker : Worker) {levels : Nat} (atMost : levels ≤ worker.levels) :
    EntersTo worker levels := by
  induction levels with
  | zero =>
      intro stage parent place tree spine within holds leads
      cases tree with
      | leaf id source content => exact enters_leaf holds.left place
      | block => exact absurd within (Nat.not_succ_le_zero _)
  | succ levels ofFewer =>
      intro stage parent place tree spine within holds leads
      have fewer := Nat.le_of_succ_le atMost
      cases tree with
      | leaf id source content => exact enters_leaf holds.left place
      | block id source head settled children =>
          obtain ⟨_, bound, stage', row, enters, reshapes, areNodes⟩ := enters_children
            (ofFewer fewer) fewer (Nat.le_of_succ_le_succ within) holds leads
          refine ⟨_, bound, stage', .block id source head settled row, enters, reshapes, rfl, ?_⟩
          rw [Tagged.node, areNodes]
          rfl

end Step

end ContainerPreview
