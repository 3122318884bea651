import ContainerPreview.Proofs.Forest.Planted
import ContainerPreview.Proofs.Worker.Walk

/-!
# The whole pass on a forest

A pass over a tree of a forest fails on no tree that the stack reaches down to: whatever it has put
in so far, every edit finds its nodes where it looks for them.  It comes to its end, it leaves the
links of the forest consistent and all other trees alone, and the tree that it leaves is the one
that the run over the tree gives.
-/

namespace ContainerPreview

open Tagged

namespace Stage

variable {stage : Stage} {parent : Option NodeId} {tree : Tagged} {row : List Tagged}

theorem selector?_eq (holds : stage.Holds (tree.entries parent)) :
    stage.1.selector? tree.id = tree.node.selector? := by
  cases tree with
  | leaf id source content =>
      have isCell := (holds.isIn _ List.mem_cons_self).cell
      rw [Forest.selector?, id_leaf, isCell]
      rfl
  | block id source head settled children =>
      have isCell := (holds.isIn _ List.mem_cons_self).cell
      rw [Forest.selector?, id_block, isCell]
      cases head <;> rfl

/-- A rule of the row has a certain selector list. -/
theorem any_selector?_eq (selector : String) (holds : stage.Holds (entriesIn parent row)) :
    (row.map Tagged.id).any (fun id => stage.1.selector? id == some selector) =
      (nodesOf row).any fun node => node.selector? == some selector := by
  induction row with
  | nil => rfl
  | cons tree rest ofRest =>
      rw [List.map_cons, List.any_cons, nodesOf_cons, List.any_cons, selector?_eq holds.left,
        ofRest holds.right]

end Stage

namespace Step

open Stage Forest

variable {stage : Stage} {entries : List Entry} {source : Option String} {worker : Worker}
  {root : NodeId} {head : Head} {settled : Bool} {children : List Tagged}

/-! ## The context rule -/

theorem edit_bind {α β : Type} (first : Edit α) (next : α → Edit β) :
    Step.edit (first >>= next) = Step.edit first >>= fun value => Step.edit (next value) := by
  funext calls stage
  change (Step.edit (first >>= next)).apply calls stage =
    (Step.edit first >>= fun value => Step.edit (next value)).apply calls stage
  rw [apply_bind, apply_edit, apply_edit, Edit.apply_bind]
  rcases first.apply stage.1 with ⟨_ | _, _⟩ <;> rfl

/-- A leaf is made, which stands nowhere. -/
theorem makes_createLeaf (content : Leaf) (source : Option String) (holds : stage.Holds entries) :
    Makes (Step.edit (create (.leaf content) source)) stage entries fun id after =>
      after = entries ++ entriesIn none [.leaf id source content] :=
  makes_create holds (.leaf content) source

/-- A block is made around trees that stand nowhere. -/
theorem makes_createWith (head : Head) (source : Option String) {added : List Tagged}
    (holds : stage.Holds (entries ++ entriesIn none added)) :
    Makes (Step.edit (createWith (.block head) source (added.map Tagged.id))) stage
      (entries ++ entriesIn none added) fun id after =>
        after = entries ++
          entriesIn none [.block id source head false (added.map (inherit source))] := by
  rw [createWith, edit_bind]
  refine (makes_create holds (.block head) source).bind ?_
  rintro id stage₁ _ reshapes rfl
  let holder := holderOf none id source head false
  let block := Tagged.block id source head false (added.map (inherit source))
  have isWhole : (entries ++ entriesIn none added ++ holder.part [] [] []).Perm
      ((holder.part [] [] [] ++ entriesIn none added) ++ entries) := by
    refine perm_of_coe ?_
    simp only [← Multiset.coe_add]
    abel
  have holdsBlock := (reshapes.holds.perm isWhole).left
  have appends : Makes (Step.edit (append id (added.map Tagged.id))) stage₁
      (entries ++ entriesIn none added ++ holder.part [] [] []) fun _ after =>
        after = entries ++ entriesIn none [block] := by
    refine (makes_append holdsBlock rfl).within isWhole reshapes.holds ?_
    rintro _ _ rfl
    refine ⟨_, List.perm_append_comm, ?_⟩
    rw [entriesIn_singleton, entries_block]
    rfl
  rw [edit_bind]
  refine appends.bind ?_
  rintro _ _ _ reshapes' rfl
  exact Makes.pure reshapes'.holds rfl

/-- A block that stands nowhere comes in front of the children of another one, and the pass is done
with it. -/
theorem makes_prependSettled {id : NodeId} {source' : Option String} {head' : Head}
    {inner : List Tagged}
    (holds : stage.Holds (Tagged.entries none (.block root source head settled children) ++
      entriesIn none [.block id source' head' false inner])) :
    Makes (Step.edit (prepend root [id]) >>= fun _ => settle id) stage
      (Tagged.entries none (.block root source head settled children) ++
        entriesIn none [.block id source' head' false inner]) fun _ after =>
          after = Tagged.entries none (.block root source head settled
            (.block id (source'.or source) head' true inner :: children)) := by
  let holder := holderOf none root source head settled
  rw [entries_block] at holds ⊢
  refine (makes_prepend holds rfl rfl).bind ?_
  rintro _ stage' _ reshapes rfl
  have holdsFirst := (Entry.part_append holder [] [] [_] children ▸ reshapes.holds).left
  refine Makes.mono (((turns_settle holdsFirst.ofSingle).singleEq rfl holdsFirst).onLeft children
    reshapes.holds) ?_
  rintro _ _ ⟨_, rfl, _, rfl, rfl⟩
  rw [entries_block]
  rfl

/-- The context rule comes in front of the children of the block if it is needed. -/
theorem turns_addContext (within : heightIn (nodesOf children) < worker.levels)
    (holds : stage.Holds (Tagged.entries none (.block root source head settled children))) :
    Turns (worker.addContext root) stage (Tagged.entries none)
      (.block root source head settled children) fun _ turned =>
        ∃ added, turned = .block root source head settled (added ++ children) ∧
          nodesOf added = worker.toggle.neededContext source (nodesOf children) := by
  have isCell := (holds.isIn _ List.mem_cons_self).cell
  have areChildren : stage.1.children root = children.map Tagged.id := congrArg Cell.children isCell
  have isSource : (stage.1.cell root).source = source := congrArg Cell.source isCell
  have isThere := any_selector?_eq worker.toggle.previewGuard holds.below
  rw [Worker.addContext]
  refine Turns.get ?_
  dsimp only
  rw [hasFixed_eq holds within, areChildren, isSource, isThere, Toggle.neededContext,
    Toggle.hasContextRule]
  cases hasFixedPosition (nodesOf children) with
  | false => exact Turns.pure holds ⟨[], rfl, rfl⟩
  | true =>
      cases (nodesOf children).any
          fun node => node.selector? == some worker.toggle.previewGuard with
      | true => exact Turns.pure holds ⟨[], rfl, rfl⟩
      | false =>
          refine (makes_createLeaf _ none holds).bind ?_
          rintro first stage₁ _ reshapes₁ rfl
          refine (makes_createLeaf _ none reshapes₁.holds).bind ?_
          rintro second stage₂ _ reshapes₂ rfl
          have holds₂ := reshapes₂.holds
          rw [List.append_assoc, ← entriesIn_append] at holds₂ ⊢
          refine (makes_createWith _ _ holds₂).bind ?_
          rintro rule stage₃ _ reshapes₃ rfl
          refine (makes_prependSettled reshapes₃.holds).mono ?_
          rintro _ _ rfl
          exact ⟨_, rfl, [_], rfl, by simp [Toggle.contextRule, Tagged.node, inherit]⟩

/-! ## The walk -/

theorem apply_walk {stage' : Stage} {steps calls : Nat}
    (finished : Forest.walk (worker.visitor calls) steps root stage.walked =
      (.finished, stage'.walked)) :
    (worker.walk steps root).apply calls stage = (.ok (), stage') := by
  have isState : (get : Step Stage).apply calls stage = (.ok stage, stage) := rfl
  have isCalls : (read : Step Nat).apply calls stage = (.ok calls, stage) := rfl
  rw [walked] at finished
  rw [Worker.walk, apply_bind, isState]
  dsimp only
  rw [apply_bind, isCalls]
  dsimp only
  rw [finished]
  rfl

theorem fails_walk {steps calls : Nat}
    (broken : IsBroken (Forest.walk (worker.visitor calls) steps root stage.walked)) :
    ((worker.walk steps root).apply calls stage).1 = .error .tooDeep := by
  have isState : (get : Step Stage).apply calls stage = (.ok stage, stage) := rfl
  have isCalls : (read : Step Nat).apply calls stage = (.ok calls, stage) := rfl
  have isFailure := broken.failure
  rw [walked] at isFailure
  rw [Worker.walk, apply_bind, isState]
  dsimp only
  rw [apply_bind, isCalls]
  dsimp only
  rw [isFailure]
  rfl

/-- The walk ends and leaves what the walk over the tree leaves. -/
theorem exists_walk (within : heightIn (nodesOf children) ≤ worker.levels)
    (holds : stage.Holds (Tagged.entries none (.block root source head settled children))) :
    ∃ deep bound stage' row, (∀ steps, bound ≤ steps →
        Ends deep (worker.walk steps root) stage () stage') ∧
      Reshapes stage stage' (Tagged.entries none (.block root source head settled children))
        (Tagged.entries none (.block root source head settled row)) ∧
        nodesOf row =
          (worker.toggle.walkAll (Place.outside.within source head) (nodesOf children)).value := by
  have holdsAll : stage.Holds
      (Tagged.entries none (.block root source head settled children) ++ []) :=
    (List.append_nil _).symm ▸ holds
  obtain ⟨deep, bound, stage', row, enters, reshapes, areNodes⟩ :=
    enters_children (entersTo worker (Nat.le_refl _)) (Nat.le_refl _) within holdsAll ⟨rfl, rfl⟩
  refine ⟨deep, bound, stage', row, fun steps enough => ?_, reshapes, ?_⟩
  · have isKind : (stage.walked.1.cell root).kind = .block head :=
      congrArg Cell.kind (holds.isIn _ List.mem_cons_self).cell
    have isContainer : (Kind.block head).isContainer := rfl
    have isEntered : ∀ calls, worker.enter calls steps root stage.walked =
        Forest.walk (worker.visitor calls) steps root stage.walked := fun calls => by
      rw [Worker.enter, isKind, if_pos isContainer]
    exact (enters steps enough).mono
      (fun calls finished => apply_walk ((isEntered calls).symm.trans finished))
      fun calls broken => fails_walk (broken.of_eq (isEntered calls).symm)
  · rw [areNodes, worker.toggle.walkNodes_eq_walkAll _ within]

/-! ## The whole pass -/

theorem apply_check (id : NodeId) (calls : Nat) (stage : Stage) :
    (worker.check id).apply calls stage =
      (if stage.1.isWithin worker.levels id then .ok () else .error .tooDeep, stage) := by
  have isState : (get : Step Stage).apply calls stage = (.ok stage, stage) := rfl
  rw [Worker.check, apply_bind, isState]
  dsimp only
  cases stage.1.isWithin worker.levels id <;> rfl

/-- The pass ends and leaves what the run over the tree leaves. -/
theorem exists_run (within : heightIn (nodesOf children) < worker.levels)
    (holds : stage.Holds (Tagged.entries none (.block root source head settled children))) :
    ∃ deep bound stage' row, (∀ steps, bound ≤ steps →
        Ends deep (worker.run steps root) stage () stage') ∧
      Reshapes stage stage' (Tagged.entries none (.block root source head settled children))
        (Tagged.entries none (.block root source head settled row)) ∧
        nodesOf row = (worker.toggle.walkAll (Place.outside.within source head)
          (worker.toggle.neededContext source (nodesOf children) ++ nodesOf children)).value := by
  obtain ⟨deep, _, stage₁, _, adds, reshapes₁, _, rfl, context, rfl, isContext⟩ :=
    turns_addContext within holds
  have lower : heightIn (nodesOf (context ++ children)) ≤ worker.levels := by
    rw [nodesOf_append, isContext, heightIn_append, Nat.max_le]
    exact ⟨(worker.toggle.heightIn_neededContext_le source _).trans (Nat.one_le_of_lt within),
      Nat.le_of_lt within⟩
  obtain ⟨deep', bound, stage₂, row, walks, reshapes₂, areNodes⟩ :=
    exists_walk lower reshapes₁.holds
  refine ⟨max deep deep', bound, stage₂, row, fun steps enough => ?_, reshapes₁.trans reshapes₂, ?_⟩
  · have lower : (Tagged.block root source head settled children).node.height ≤ worker.levels :=
      within
    have isWithin : stage.1.isWithin worker.levels root := isWithin_of_height lower holds
    have ends : Ends (max deep deep') (worker.addContext root >>= fun _ => worker.walk steps root)
        stage () stage₂ :=
      adds.bind (walks steps enough)
    refine ends.congr fun calls => ?_
    rw [Worker.run, apply_bind, apply_check, if_pos isWithin]
  · rw [areNodes, nodesOf_append, isContext]

end Step

namespace Forest

variable {forest : Forest} {root : NodeId} {source : Option String} {head : Head}
  {children : List Node}

/-- There are no marks in a forest. -/
theorem HasTrees.clearMarksIn_eq {ids : List NodeId} {trees : List Node}
    (has : forest.HasTrees ids trees) : clearMarksIn trees = trees := by
  induction trees using forest_induction generalizing ids with
  | nil => rfl
  | leaf source content rest ofRest =>
      obtain ⟨_, _, rfl, _, isRest⟩ := hasTrees_cons_iff.mp has
      rw [clearMarksIn, ofRest isRest]
      rfl
  | block source head settled children rest ofChildren ofRest =>
      obtain ⟨_, _, rfl, ⟨_, _, rfl, areChildren⟩, isRest⟩ := hasTrees_cons_iff.mp has
      rw [clearMarksIn, ofRest isRest, Node.clearMarks, ofChildren areChildren]

/-- A node that a block tree hangs from is in use. -/
theorem HasTree.inUse {settled : Bool}
    (has : forest.HasTree root (.block source head settled children)) : root < forest.size := by
  by_contra unused
  have isKind := has.1
  rw [cell, Array.getD_eq_getD_getElem?, Array.getElem?_eq_none (Nat.not_lt.mp unused)] at isKind
  cases isKind

/-- A tree of a forest that nothing works on yet can be read as one whose nodes have their
numbers. -/
theorem HasTree.exists_holds (has : forest.HasTree root (.block source head false children))
    (linked : forest.WellLinked) (isTop : forest.parent? root = none)
    (bare : ∀ id, Relation.ReflTransGen forest.IsParent root id → (forest.cell id).IsBare) :
    ∃ row, nodesOf row = children ∧
      Stage.Holds (forest, []) (Tagged.entries none (.block root source head false row)) ∧
      ∀ id ∈ (Tagged.entries none (.block root source head false row)).map Entry.id,
        Relation.ReflTransGen forest.IsParent root id := by
  obtain ⟨tagged, isRoot, isTree, holds, areBelow⟩ := Stage.exists_tagged (forest, []) linked
    (List.forall_mem_nil _) has.inUse has fun id below => ⟨bare id below, List.not_mem_nil⟩
  cases tagged with
  | leaf => cases isTree
  | block id source head settled row =>
      cases isTree
      obtain rfl : id = root := isRoot
      have holdsTop : Stage.Holds (forest, []) (entriesIn none [.block id source head false row]) :=
        isTop ▸ holds
      refine ⟨row, rfl, holdsTop.left, fun other member => areBelow other ?_⟩
      rw [← map_id_eq_idsOf none, entriesIn_singleton]
      exact member

end Forest

/-- The pass over a tree of a forest with consistent links, in which no other walk is under way.  If
the stack reaches down to all of the tree and deep enough into its values, the pass ends and nothing
fails: with enough steps it always gives the same forest, whose links are consistent, where the tree
is that of the run over the tree, and where all nodes that were not in the tree are as before.  If
the stack does not reach down or not deep enough, the pass fails for this reason. -/
theorem toggle_ends (options : Options) {forest : Forest} {root : NodeId} {source : Option String}
    {head : Head} {children : List Node} (linked : forest.WellLinked)
    (isTop : forest.parent? root = none)
    (has : forest.HasTree root (.block source head false children))
    (bare : ∀ id, Relation.ReflTransGen forest.IsParent root id → (forest.cell id).IsBare)
    (levels : Nat) :
    let tree := Node.block source head false children
    (tree.height ≤ levels → ∃ deep bound forest',
      (∀ calls steps, deep ≤ calls → bound ≤ steps →
        (Forest.toggle options levels calls steps root).apply forest = (.ok (), forest')) ∧
      (∀ calls steps, calls < deep → bound ≤ steps →
        ((Forest.toggle options levels calls steps root).apply forest).1 = .error .tooDeep) ∧
      forest'.WellLinked ∧
      forest'.HasTree root (runToggle options tree).value ∧
      ∀ id < forest.size, ¬ Relation.ReflTransGen forest.IsParent root id →
        forest'.cell id = forest.cell id) ∧
    (levels < tree.height → ∀ calls steps,
      ((Forest.toggle options levels calls steps root).apply forest).1 = .error .tooDeep) := by
  intro tree
  let worker : Worker := { toggle := .ofOptions options, levels }
  have sameRun : ∀ calls steps, (Forest.toggle options levels calls steps root).apply forest =
      (((worker.run steps root).apply calls (forest, [])).1,
        ((worker.run steps root).apply calls (forest, [])).2.1) := fun _ _ => rfl
  refine ⟨fun within => ?_, fun tooHigh calls steps => ?_⟩
  · have unmarked : clearMarksIn children = children := has.2.2.2.clearMarksIn_eq
    obtain ⟨row, rfl, holds, areBelow⟩ := has.exists_holds linked isTop bare
    have lower : heightIn (nodesOf row) < worker.levels := within
    obtain ⟨deep, bound, stage', row', ends, reshapes, areNodes⟩ := Step.exists_run lower holds
    refine ⟨deep, bound, stage'.1, fun calls steps reaches enough => ?_,
      fun calls steps less enough => ?_, reshapes.holds.linked, ?_, fun id inUse apart => ?_⟩
    · rw [sameRun, (ends steps enough calls).1 reaches]
    · rw [sameRun]
      exact (ends steps enough calls).2 less
    · have isTree : (runToggle options tree).value =
          (Tagged.block root source head false row').node.clearMarks := by
        rw [value_runToggle, Toggle.preparedNodes, unmarked, Tagged.node, Node.clearMarks, areNodes]
      have holdsTop : stage'.Holds (entriesIn none [.block root source head false row']) :=
        (entriesIn_singleton ..).symm ▸ reshapes.holds
      rw [isTree]
      exact Forest.hasTrees_singleton_iff.mp holdsTop.hasTrees
    · exact (reshapes.others id inUse fun member => apart (areBelow id member)).cell
  · have isAbove : ¬ forest.isWithin levels root := fun isWithin => by
      have all := (Forest.isWithin_iff (Forest.hasTrees_singleton_iff.mpr has)).mp
        (List.forall_mem_singleton.mpr isWithin)
      rw [heightIn_cons, Nat.max_le] at all
      exact Nat.not_lt.mpr all.1 tooHigh
    rw [sameRun, Worker.run, Step.apply_bind, Step.apply_check, if_neg isAbove]

/-- A sheet with a fixed position in a media block and another media block in that one. -/
def nestedMediaSheet : Node :=
  .block none .sheet false
    [.block none (.atRule "media" "(min-width: 600px)" true) false
      [.block none (.rule ".bar") false
        [.leaf none (.declaration ⟨"position", "fixed", false⟩),
          .leaf none (.declaration ⟨"top", "1vh", false⟩)],
        .block none (.atRule "media" "(max-width: 900px)" true) false
          [.block none (.rule ".bar") false [.leaf none (.declaration ⟨"width", "50vw", false⟩)]]]]

theorem toggle_ends_nestedMediaSheet : ∃ root forest,
    (Forest.plant nestedMediaSheet).apply {} = (.ok root, forest) ∧
    forest.WellLinked ∧ forest.parent? root = none ∧ forest.HasTree root nestedMediaSheet ∧
    (∀ id, Relation.ReflTransGen forest.IsParent root id → (forest.cell id).IsBare) ∧
    (∃ deep bound forest', (∀ calls steps, deep ≤ calls → bound ≤ steps →
        (Forest.toggle {} 4 calls steps root).apply forest = (.ok (), forest')) ∧
      (∀ calls steps, calls < deep → bound ≤ steps →
        ((Forest.toggle {} 4 calls steps root).apply forest).1 = .error .tooDeep) ∧
      forest'.WellLinked ∧ forest'.HasTree root (runToggle {} nestedMediaSheet).value ∧
      ∀ id < forest.size, ¬ Relation.ReflTransGen forest.IsParent root id →
        forest'.cell id = forest.cell id) ∧
    ∀ calls steps, ((Forest.toggle {} 3 calls steps root).apply forest).1 = .error .tooDeep := by
  obtain ⟨root, forest, planted, grown⟩ :=
    Forest.exists_grown_plant nestedMediaSheet Forest.wellLinked_empty
  have isCopy : nestedMediaSheet.copy = nestedMediaSheet := by decide
  have isTop := grown.detached root List.mem_cons_self
  have has := Forest.hasTrees_singleton_iff.mp grown.has
  rw [isCopy] at has
  have bare : ∀ id, Relation.ReflTransGen forest.IsParent root id → (forest.cell id).IsBare :=
    fun id _ => grown.bare id (Nat.zero_le id)
  have ends := toggle_ends {} grown.linked isTop has bare
  exact ⟨root, forest, planted, grown.linked, isTop, has, bare, (ends 4).1 (by decide),
    (ends 3).2 (by decide)⟩

end ContainerPreview
