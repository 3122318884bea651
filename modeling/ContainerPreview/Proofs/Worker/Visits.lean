import ContainerPreview.Proofs.Worker.Groups

/-!
# Visits in place

A visit of a node in a forest succeeds and does to the node and its surroundings what a visit of the
node in a tree does: the node becomes another one, and further nodes come to stand right after it.
-/

namespace ContainerPreview

open Tagged

/-- What visiting a node makes of it and puts after it. -/
def Tagged.IsVisit (visited : Toggle.Visit) (tree : Tagged) (turned : List Tagged) : Prop :=
  ∃ tree' added, turned = tree' :: added ∧ tree'.id = tree.id ∧ tree'.node = visited.node ∧
    nodesOf added = visited.after

namespace Step

open Stage Toggle

variable {stage : Stage} {parent : Option NodeId} {holder : Entry} {front back : List NodeId}
  {id : NodeId} {source : Option String} {head : Head} {settled : Bool} {row children : List Tagged}
  {worker : Worker} {tree : Tagged} {place : Place} {selector params : String} {hasBlock : Bool}

/-! ## Rules -/

/-- Where a node stands, as a forest tells it. -/
structure IsPlace (stage : Stage) (id : NodeId) (file : Option String) (place : Place) : Prop where
  insideQuery : stage.1.isInQuery (stage.1.size + 1) id = place.insideQuery
  inKeyframes : stage.1.isInKeyframes id = place.inKeyframes
  around : file = place.around

theorem turns_visitRule (within : heightIn (nodesOf children) < worker.levels)
    (isContainer : holder.cell.kind.isContainer)
    (cursors : ∀ cursor ∈ holder.cell.cursors, cursor.index ≤ front.length)
    (isPlace : IsPlace stage id holder.cell.source place)
    (holds : stage.Holds
      (holder.part front back [.block id source (.rule selector) settled children])) :
    Turns (worker.visitRule id selector) stage (holder.part front back)
      [.block id source (.rule selector) settled children] fun _ turned =>
        IsVisit (worker.toggle.visitRule place source selector settled (nodesOf children)).value
          (.block id source (.rule selector) settled children) turned := by
  rw [Worker.visitRule]
  refine Turns.get ?_
  dsimp only
  rw [contains_eq holds.ofSingle, isPlace.insideQuery, isPlace.inKeyframes, Toggle.visitRule]
  cases settled || place.insideQuery || place.inKeyframes with
  | true => exact Turns.pure holds ⟨_, [], rfl, rfl, rfl, rfl⟩
  | false =>
      cases worker.toggle.isGuarded selector with
      | true =>
          refine ((turns_settle holds.ofSingle).singleEq (by simp only [id_block]) holds).mono ?_
          rintro _ _ rfl
          exact ⟨_, [], rfl, by simp only [id_block], rfl, rfl⟩
      | false =>
          refine Turns.bind (turns_forkRule within isContainer cursors holds) ?_
          rintro _ stage' _ holds' ⟨added, rfl, areVariants⟩
          have holdsRule := (Entry.part_append holder front back [_] added ▸ holds').left
          refine (((turns_settle holdsRule.ofSingle).singleEq (by simp only [id_block])
            holdsRule).onLeft added holds').mono ?_
          rintro _ _ ⟨_, rfl, rfl⟩
          rw [isPlace.around] at areVariants ⊢
          exact ⟨_, added, rfl, by simp only [id_block], rfl, areVariants⟩

/-! ## Media blocks -/

theorem isScoped_eq
    (holds : stage.Holds (Tagged.entries parent (.block id source head settled children)))
    (within : heightIn (nodesOf children) < worker.levels) :
    worker.isScoped stage.1 id = (selectorsIn (nodesOf children)).any fun selector =>
      Text.contains selector worker.toggle.viewportGuard := by
  rw [Worker.isScoped, belowTo_block holds within, filterMap_selector? holds.below]

variable (tree) in
/-- The container blocks of a media block come after it and are marked. -/
theorem makes_placeContainers {made : List Tagged} {value : List (List NodeId)}
    (ids : value.flatten = made.map Tagged.id) (blocks : ∀ tree ∈ made, tree.node.isLeaf = false)
    (isContainer : holder.cell.kind.isContainer)
    (cursors : ∀ cursor ∈ holder.cell.cursors, cursor.index ≤ front.length)
    (holds : stage.Holds (holder.part front back [tree] ++ entriesIn none made)) :
    Makes (if !value.flatten.isEmpty then
        Step.edit (Forest.after tree.id value.flatten) >>= fun _ => value.flatten.forM settle
        else pure ()) stage (holder.part front back [tree] ++ entriesIn none made)
      fun _ after => after = holder.part front back
        (tree :: (made.map Tagged.settle).map (inherit holder.cell.source)) := by
  rw [ids]
  cases made with
  | nil => exact Makes.pure holds (by simp)
  | cons first others =>
      exact makes_afterSettled tree (first :: others) blocks isContainer cursors holds

/-- The groups of a media block are treated, and the container blocks come after it. -/
theorem turns_treatGroups {conditions : List String}
    (within : heightIn (nodesOf children) < worker.levels)
    (isContainer : holder.cell.kind.isContainer)
    (cursors : ∀ cursor ∈ holder.cell.cursors, cursor.index ≤ front.length)
    (holds : stage.Holds (holder.part front back
      [.block id source (.atRule "media" params hasBlock) settled children])) :
    Turns (do
        let groups ← worker.collect worker.levels conditions id
        let containers := (← groups.mapM worker.treatGroup).flatten
        if !containers.isEmpty then
          Step.edit (Forest.after id containers)
          containers.forM settle) stage (holder.part front back)
      [.block id source (.atRule "media" params hasBlock) settled children] fun _ turned =>
        let treatment := worker.toggle.treatNodes conditions source (nodesOf children)
        ∃ children' added,
          turned = .block id source (.atRule "media" params hasBlock) settled children' :: added ∧
            nodesOf children' = treatment.nodes ∧
              nodesOf added = (treatment.allContainers conditions).map
                (Node.inherit holder.cell.source) := by
  refine Turns.bind (Turns.inFirst holds fun holdsBelow =>
    turns_collect (Nat.le_refl _) within holdsBelow) ?_
  rintro groups stage₁ _ holds₁ ⟨collected, rfl, nested, rfl, collects⟩
  have treatsAll : TreatsTo worker worker.levels := treatsTo worker (Nat.le_refl _)
  have treatment := Yields.inFirst holds₁ fun holdsBelow =>
    treatsAll collects rfl rfl (Nat.le_of_lt within) holdsBelow
  refine Makes.bind treatment ?_
  rintro value stage₂ _ reshapes ⟨made, _, rfl, treated, rfl, treats⟩
  refine Makes.mono (makes_placeContainers (.block id source
    (.atRule "media" params hasBlock) settled treated) treats.ids treats.blocks isContainer
    cursors reshapes.holds) ?_
  rintro _ _ rfl
  refine ⟨_, rfl, treated, _, rfl, treats.nodes, ?_⟩
  rw [nodesOf_map_inherit, treats.containers]
  rfl

theorem turns_visitMedia (within : heightIn (nodesOf children) < worker.levels)
    (isContainer : holder.cell.kind.isContainer) (around : holder.cell.source = place.around)
    (cursors : ∀ cursor ∈ holder.cell.cursors, cursor.index ≤ front.length)
    (holds : stage.Holds (holder.part front back
      [.block id source (.atRule "media" params hasBlock) settled children])) :
    Turns (worker.visitMedia id params) stage (holder.part front back)
      [.block id source (.atRule "media" params hasBlock) settled children] fun _ turned =>
        IsVisit (worker.toggle.visit place
            (.block source (.atRule "media" params hasBlock) settled (nodesOf children))).value
          (.block id source (.atRule "media" params hasBlock) settled children) turned := by
  rw [Worker.visitMedia]
  refine Turns.get ?_
  rw [contains_eq holds.ofSingle]
  cases settled with
  | true => exact Turns.pure holds ⟨_, [], rfl, rfl, rfl, rfl⟩
  | false =>
      refine Turns.bind ((turns_settle holds.ofSingle).singleEq (by simp only [id_block]) holds) ?_
      rintro _ stage₁ _ holds₁ rfl
      refine Turns.get ?_
      rw [isScoped_eq holds₁.ofSingle within]
      change Turns _ _ _ _ fun _ turned => IsVisit
        (worker.toggle.visitMedia place.around source params hasBlock (nodesOf children)).value
        (.block id source (.atRule "media" params hasBlock) false children) turned
      rw [Toggle.visitMedia]
      cases (selectorsIn (nodesOf children)).any fun selector =>
          Text.contains selector worker.toggle.viewportGuard with
      | true => exact Turns.pure holds₁ ⟨_, [], rfl, by simp only [id_block], rfl, rfl⟩
      | false =>
          simp only [Bool.not_false, if_true, Bool.false_eq_true, if_false, Traced.value_bind]
          cases isOwn : (Media.conditions worker.toggle.hook params).value with
          | none =>
              refine ((turns_settleMedia within holds₁.ofSingle).single ?_ holds₁).mono ?_
              · rintro _ _ ⟨children', rfl, -⟩
                simp only [id_block]
              · rintro _ _ ⟨_, rfl, children', rfl, areSettled⟩
                refine ⟨_, [], rfl, by simp only [id_block], ?_, rfl⟩
                rw [Tagged.node, areSettled]
                rfl
          | some conditions =>
              refine (turns_treatGroups within isContainer cursors holds₁).mono ?_
              rintro _ _ ⟨children', added, rfl, areNodes, areAdded⟩
              refine ⟨_, added, rfl, by simp only [id_block], ?_, ?_⟩
              · rw [Tagged.node, areNodes]
                rfl
              · rw [areAdded, around]
                rfl

/-! ## All nodes -/

/-- A step after the check of a node that is not too high. -/
theorem Turns.check {β σ : Type} {shape : σ → List Entry} {state : σ} {next : Unit → Step β}
    {post : β → σ → Prop} (isWithin : stage.1.isWithin worker.levels id)
    (turns : Turns (next ()) stage shape state post) :
    Turns (worker.check id >>= next) stage shape state post := by
  rw [Worker.check, bind_assoc]
  refine Turns.get ?_
  rw [isWithin]
  exact turns

theorem isWithin_of_height (within : tree.node.height ≤ worker.levels)
    (holds : stage.Holds (tree.entries parent)) : stage.1.isWithin worker.levels tree.id := by
  have holdsRow : stage.Holds (entriesIn parent [tree]) := (entriesIn_singleton ..).symm ▸ holds
  refine (Forest.isWithin_iff holdsRow.hasTrees).mpr ?_ tree.id List.mem_cons_self
  simpa using within

/-- A visit in a forest is a visit in the tree. -/
theorem turns_visit (within : tree.node.height ≤ worker.levels)
    (isContainer : holder.cell.kind.isContainer)
    (cursors : ∀ cursor ∈ holder.cell.cursors, cursor.index ≤ front.length)
    (isPlace : IsPlace stage tree.id holder.cell.source place)
    (holds : stage.Holds (holder.part front back [tree])) :
    Turns (worker.visit tree.id) stage (holder.part front back) [tree] fun _ turned =>
      IsVisit (worker.toggle.visit place tree.node).value tree turned := by
  rw [Worker.visit]
  refine Turns.check (isWithin_of_height within holds.ofSingle) (Turns.get ?_)
  cases tree with
  | leaf id source content =>
      have isKind : (stage.1.cell id).kind = .leaf content :=
        congrArg Cell.kind (holds.ofSingle.isIn _ List.mem_cons_self).cell
      rw [id_leaf, Forest.head?, isKind, Kind.head?_leaf]
      exact Turns.pure holds ⟨_, [], rfl, rfl, rfl, rfl⟩
  | block id source head settled children =>
      rw [id_block, head?_block holds.ofSingle]
      cases head with
      | sheet => exact Turns.pure holds ⟨_, [], rfl, rfl, rfl, rfl⟩
      | rule selector => exact turns_visitRule within isContainer cursors isPlace holds
      | atRule name params hasBlock =>
          by_cases isMedia : name = "media"
          · subst isMedia
            exact turns_visitMedia within isContainer isPlace.around cursors holds
          · split
            next same => cases same
            next same => cases same; exact absurd rfl isMedia
            next =>
              rw [visit_other worker.toggle place rfl
                (by simp [Tagged.node, Node.isMedia, Node.head?, Head.isMedia, isMedia])]
              exact Turns.pure holds ⟨_, [], rfl, rfl, rfl, rfl⟩

end Step

end ContainerPreview
