import ContainerPreview.Proofs.Worker.Process

/-!
# Treating rules in place

A pass scopes a rule to the viewport, forks it, or makes a rule of a copy fit for the preview.  Each
of these works on one rule, and a loop over the rules below an at-rule makes of it what the pass
over lists makes of it.
-/

namespace ContainerPreview

open Tagged

/-- The tree with its top marked. -/
def Tagged.settle : Tagged → Tagged
  | .leaf id source content => .leaf id source content
  | .block id source head _ children => .block id source head true children

theorem Tagged.settle_inherit (file : Option String) (tree : Tagged) :
    (tree.inherit file).settle = tree.settle.inherit file := by
  cases tree <;> rfl

namespace Stage

variable {stage : Stage} {parent : Option NodeId} {id : NodeId} {source : Option String}
  {selector : String} {head : Head} {settled : Bool} {children : List Tagged} {worker : Worker}

theorem selector?_rule
    (holds : stage.Holds
      (Tagged.entries parent (.block id source (.rule selector) settled children))) :
    stage.1.selector? id = some selector := by
  have isKind : (stage.1.cell id).kind = .block (.rule selector) :=
    congrArg Cell.kind (holds.isIn _ List.mem_cons_self).cell
  rw [Forest.selector?, isKind]
  rfl

theorem contains_eq
    (holds : stage.Holds (Tagged.entries parent (.block id source head settled children))) :
    stage.2.contains id = settled := by
  have isSettled := (holds.isIn _ List.mem_cons_self).settled
  rw [Bool.eq_iff_iff, List.contains_iff_mem]
  exact isSettled

theorem needsVariant_eq
    (holds : stage.Holds (Tagged.entries parent (.block id source head settled children)))
    (within : heightIn (nodesOf children) < worker.levels) :
    worker.needsVariant stage.1 id = needsVariant worker.toggle.converter (nodesOf children) := by
  rw [Worker.needsVariant, hasFixed_eq holds within, declarations_eq holds within, needsVariant]

end Stage

namespace Step

open Stage

variable {stage : Stage} {parent : Option NodeId} {holder : Entry} {front back : List NodeId}
  {id : NodeId} {source : Option String} {selector : String} {head : Head} {settled : Bool}
  {children : List Tagged} {worker : Worker}

/-! ## Single rules -/

theorem turns_guardRule
    (holds : stage.Holds
      (Tagged.entries parent (.block id source (.rule selector) settled children))) :
    Turns (worker.guardRule id) stage (Tagged.entries parent)
      (.block id source (.rule selector) settled children) fun _ turned => turned =
        .block id source (.rule (worker.toggle.scopeUnguarded selector)) true children := by
  rw [Worker.guardRule]
  refine Turns.get ?_
  rw [selector?_rule holds]
  dsimp only
  rw [Toggle.scopeUnguarded]
  cases worker.toggle.isGuarded selector with
  | true => exact turns_settle holds
  | false =>
      refine Turns.bind (turns_selector holds _) ?_
      rintro _ stage' _ holds' rfl
      exact turns_settle holds'

theorem turns_placeRule (within : heightIn (nodesOf children) < worker.levels)
    (holds : stage.Holds
      (Tagged.entries parent (.block id source (.rule selector) settled children))) :
    Turns (worker.placeRule id) stage (Tagged.entries parent)
      (.block id source (.rule selector) settled children) fun _ turned => ∃ children',
        turned = .block id source (.rule (worker.toggle.placeInPreview selector)) true children' ∧
          nodesOf children' = (worker.toggle.variantChildren source (nodesOf children)).value ∧
            SameRules children children' := by
  rw [Worker.placeRule]
  refine Turns.get ?_
  rw [selector?_rule holds]
  dsimp only
  refine Turns.bind (turns_selector holds _) ?_
  rintro _ stage' _ holds' rfl
  refine Turns.bind (turns_process within holds') ?_
  rintro _ stage'' _ holds'' ⟨children', rfl, areNodes, same⟩
  refine (turns_settle holds'').mono ?_
  rintro _ _ rfl
  exact ⟨children', rfl, areNodes, same⟩

/-! ## Blocks that come after another node -/

/-- Blocks in a row are marked, one after the other. -/
theorem turns_settleAll {row : List Tagged} (blocks : ∀ tree ∈ row, tree.node.isLeaf = false)
    (holds : stage.Holds (holder.part front back row)) :
    Turns ((row.map Tagged.id).forM settle) stage (holder.part front back) row fun _ turned =>
      turned = row.map Tagged.settle := by
  induction row generalizing stage front with
  | nil => exact Turns.pure holds rfl
  | cons tree rest ofRest =>
      obtain ⟨isBlock, areBlocks⟩ := List.forall_mem_cons.mp blocks
      rw [List.map_cons, ← List.singleton_append]
      refine Turns.forM_cons (fun turned => turned = [tree.settle]) holds (fun holdsFirst => ?_)
        (fun holdsRest => ofRest areBlocks holdsRest) ?_
      · cases tree with
        | leaf => cases isBlock
        | block id source head settled children =>
            rw [forM_singleton]
            exact (turns_settle holdsFirst.ofSingle).singleEq (by simp only [id_block]) holdsFirst
      · rintro _ _ rfl rfl
        rfl

/-- Blocks that stand nowhere come after a child, and the pass is done with them. -/
theorem makes_afterSettled (tree : Tagged) (added : List Tagged)
    (blocks : ∀ tree ∈ added, tree.node.isLeaf = false) (isContainer : holder.cell.kind.isContainer)
    (cursors : ∀ cursor ∈ holder.cell.cursors, cursor.index ≤ front.length)
    (holds : stage.Holds (holder.part front back [tree] ++ entriesIn none added)) :
    Makes (Step.edit (Forest.after tree.id (added.map Tagged.id)) >>= fun _ =>
        (added.map Tagged.id).forM settle) stage
      (holder.part front back [tree] ++ entriesIn none added) fun _ after =>
        after = holder.part front back
          (tree :: (added.map Tagged.settle).map (inherit holder.cell.source)) := by
  refine Makes.bind (makes_after tree added holds isContainer cursors) ?_
  rintro _ stage' _ reshapes rfl
  have areBlocks : ∀ tree ∈ added.map (inherit holder.cell.source), tree.node.isLeaf = false := by
    refine List.forall_mem_map.mpr fun tree member => ?_
    have isBlock := blocks tree member
    cases tree with
    | leaf => cases isBlock
    | block => rfl
  have holdsAdded := (reshapes.holds.perm (Entry.part_append_perm holder front back [tree] _)).left
  rw [← map_id_inherit holder.cell.source added]
  refine Makes.mono ((turns_settleAll areBlocks holdsAdded).onRight [tree] reshapes.holds) ?_
  rintro _ _ ⟨_, rfl, _, rfl, rfl⟩
  simp [settle_inherit, Function.comp_def]

/-! ## Forking -/

/-- A rule in a row is cloned beside the row. -/
theorem makes_cloneInRow
    (holds : stage.Holds
      (holder.part front back [.block id source (.rule selector) settled children]))
    (text : String) :
    Makes (Step.edit (Forest.clone id [("selector", .text text)])) stage
      (holder.part front back [.block id source (.rule selector) settled children])
      fun copy after => ∃ children', nodesOf children' = copyInto source (nodesOf children) ∧
        after = holder.part front back [.block id source (.rule selector) settled children] ++
          Tagged.entries none (.block copy source (.rule text) false children') := by
  refine Makes.within (makes_cloneRule holds.ofSingle text) (Entry.part_single_perm ..) holds ?_
  rintro copy _ ⟨children', areCopies, rfl⟩
  refine ⟨_, ?_, children', areCopies, rfl⟩
  refine List.Perm.trans ?_ ((Entry.part_single_perm ..).symm.append_right _)
  rw [List.append_assoc, List.append_assoc]
  exact List.perm_append_comm.append_left _

/-- Forking a rule leaves its variant after it, if it needs one. -/
theorem turns_forkRule (within : heightIn (nodesOf children) < worker.levels)
    (isContainer : holder.cell.kind.isContainer)
    (cursors : ∀ cursor ∈ holder.cell.cursors, cursor.index ≤ front.length)
    (holds : stage.Holds
      (holder.part front back [.block id source (.rule selector) settled children])) :
    Turns (worker.forkRule id) stage (holder.part front back)
      [.block id source (.rule selector) settled children] fun _ turned =>
        let fork := (worker.toggle.forkRule holder.cell.source source selector
          (nodesOf children)).value
        ∃ added, turned = .block id source (.rule fork.selector) settled children :: added ∧
          nodesOf added = fork.variants := by
  have holdsRule := holds.ofSingle
  rw [Worker.forkRule]
  refine Turns.get ?_
  dsimp only
  rw [selector?_rule holdsRule]
  dsimp only
  rw [needsVariant_eq holdsRule within, Toggle.forkRule]
  cases needsVariant worker.toggle.converter (nodesOf children) with
  | false =>
      refine ((turns_selector holdsRule (worker.toggle.keepInBothModes selector)).singleEq (by simp)
        holds).mono ?_
      rintro _ _ rfl
      exact ⟨[], rfl, rfl⟩
  | true =>
      refine Makes.bind (makes_cloneInRow holds (worker.toggle.scopeToPreview selector)) ?_
      rintro copy stage₁ _ reshapes₁ ⟨copied, areCopies, rfl⟩
      have holds₁ := reshapes₁.holds
      have sameHeight : heightIn (nodesOf copied) = heightIn (nodesOf children) := by
        rw [areCopies, heightIn_copyInto]
      have isScoped := (turns_selector holds₁.left.ofSingle
        (worker.toggle.scopeToViewport selector)).singleEq (by simp only [id_block]) holds₁.left
      refine Makes.bind (isScoped.frameRight holds₁) ?_
      rintro _ stage₂ _ reshapes₂ ⟨_, rfl, _, rfl, rfl⟩
      have holds₂ := reshapes₂.holds
      refine Makes.bind ((turns_process (sameHeight ▸ within) holds₂.right).frameLeft holds₂) ?_
      rintro _ stage₃ _ reshapes₃ ⟨_, rfl, _, rfl, converted, rfl, areConverted, -⟩
      have isAfter := makes_afterSettled
        (.block id source (.rule (worker.toggle.scopeToViewport selector)) settled children)
        [.block copy source (.rule (worker.toggle.scopeToPreview selector)) false converted]
        (List.forall_mem_singleton.mpr rfl) isContainer cursors
        ((entriesIn_singleton ..).symm ▸ reshapes₃.holds)
      rw [entriesIn_singleton, List.map_singleton, forM_singleton] at isAfter
      refine Makes.mono isAfter ?_
      rintro _ _ rfl
      refine ⟨_, rfl, _, rfl, ?_⟩
      rw [List.map_singleton, List.map_singleton, nodesOf_cons, node_inherit, Tagged.settle,
        Tagged.node, areConverted, areCopies]
      rfl

end Step

end ContainerPreview
