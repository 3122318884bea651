import ContainerPreview.Proofs.Toggle.Replace
import ContainerPreview.Proofs.Worker.Rules

/-!
# Treating the nodes of a media block in place

A node of a media block is scoped to the viewport, forked or, as a copy, made fit for the preview by
doing the same with each of its rules: with the rule that it is, or with the rules below it.
-/

namespace ContainerPreview

open Tagged

theorem isFree_rule (inKeyframes : Bool) (selector : String) :
    isFree inKeyframes (.block (.rule selector)) = !inKeyframes :=
  Bool.true_and _

theorem exists_rule_of_isFree {inKeyframes : Bool} {head : Head}
    (free : isFree inKeyframes (.block head) = true) :
    ∃ selector, head = .rule selector ∧ inKeyframes = false := by
  cases head with
  | rule selector =>
      rw [isFree_rule, Bool.not_eq_true'] at free
      exact ⟨selector, rfl, free⟩
  | sheet => cases free
  | atRule => cases free

/-- The rules that are treated along with a node of a media block. -/
def Tagged.treatedRules : Tagged → List NodeId
  | .leaf _ _ _ | .block _ _ .sheet _ _ => []
  | .block id _ (.rule _) _ _ => [id]
  | .block _ _ (.atRule name params hasBlock) _ children =>
      select isFree (Head.atRule name params hasBlock).isKeyframes children

theorem Stage.rules_eq {stage : Stage} {parent : Option NodeId} {tree : Tagged} {worker : Worker}
    (holds : stage.Holds (tree.entries parent)) (within : tree.node.height ≤ worker.levels) :
    worker.rules stage.1 tree.id = tree.treatedRules := by
  cases tree with
  | leaf id source content =>
      have isKind : (stage.1.cell id).kind = .leaf content :=
        congrArg Cell.kind (holds.isIn _ List.mem_cons_self).cell
      rw [Worker.rules, Tagged.id, Forest.head?, isKind, Kind.head?_leaf]
      rfl
  | block id source head settled children =>
      rw [Worker.rules, Tagged.id, head?_block holds]
      cases head with
      | sheet => rfl
      | rule => rfl
      | atRule name params hasBlock =>
          exact filter_belowTo isFree holds (Nat.lt_of_succ_le within)

namespace Step

open Stage Toggle

variable {stage : Stage} {parent : Option NodeId} {holder : Entry} {front back : List NodeId}
  {id : NodeId} {source : Option String} {selector : String} {head : Head} {settled : Bool}
  {children : List Tagged} {worker : Worker} {tree : Tagged}

/-! ## Loops over rules -/

theorem loopRule_guardRule (worker : Worker) (limit : Nat) :
    LoopRule isFree worker.guardRule limit fun inKeyframes _ row row' =>
      nodesOf row' = scopeNodes worker.toggle inKeyframes (nodesOf row) where
  nil _ _ := rfl
  keepLeaf := by
    intro inKeyframes file id source content rest rest' _ isRest
    simp [Tagged.node, scopeNodes, scopeNode, isRest]
  keepBlock := by
    intro inKeyframes file id source head settled children children' rest rest' notFree isBelow
      isRest
    cases head with
    | rule selector =>
        have isKeyframes : inKeyframes = true := by simpa [isFree_rule] using notFree
        have below : nodesOf children' = scopeNodes worker.toggle false (nodesOf children) :=
          isBelow
        simp [Tagged.node, scopeNodes, scopeNode, isKeyframes, below, isRest]
    | sheet => simp [Tagged.node, scopeNodes, scopeNode, isBelow, isRest]
    | atRule => simp [Tagged.node, scopeNodes, scopeNode, isBelow, isRest]
  workLeaf := by
    intro inKeyframes id source content free
    cases free
  workBlock := by
    intro inKeyframes id source head settled children free _ stage holder front back _ _ holds
    obtain ⟨selector, rfl, rfl⟩ := exists_rule_of_isFree free
    refine ((turns_guardRule holds.ofSingle).singleEq (by simp) holds).mono ?_
    rintro _ _ rfl
    refine ⟨_, _, _, [], rfl, rfl, Nat.le_refl _, fun children'' rest rest' isBelow isRest => ?_⟩
    have below : nodesOf children'' = scopeNodes worker.toggle false (nodesOf children) := isBelow
    simp [Tagged.node, scopeNodes, scopeNode, below, isRest]

/-- Forking a rule that the pass is not done with, and not forking another one. -/
theorem turns_forkOnce (within : heightIn (nodesOf children) < worker.levels)
    (isContainer : holder.cell.kind.isContainer) (noCursors : holder.cell.cursors = [])
    (holds : stage.Holds
      (holder.part front back [.block id source (.rule selector) settled children])) :
    Turns (worker.forkOnce id) stage (holder.part front back)
      [.block id source (.rule selector) settled children] fun _ turned =>
        let fork := (worker.toggle.forkRule holder.cell.source source selector
          (nodesOf children)).value
        ∃ added,
          turned = .block id source (.rule (if settled then selector else fork.selector)) true
            children :: added ∧
          nodesOf added = if settled then [] else fork.variants := by
  rw [Worker.forkOnce]
  refine Turns.get ?_
  rw [contains_eq holds.ofSingle]
  cases settled with
  | true => exact Turns.pure holds ⟨[], rfl, rfl⟩
  | false =>
      refine Turns.bind (turns_forkRule within isContainer (by simp [noCursors]) holds) ?_
      rintro _ stage' _ holds' ⟨added, rfl, areVariants⟩
      have holdsRule := (Entry.part_append holder front back [_] added ▸ holds').left
      refine (((turns_settle holdsRule.ofSingle).singleEq (by simp) holdsRule).onLeft
        added holds').mono ?_
      rintro _ _ ⟨_, rfl, rfl⟩
      exact ⟨added, rfl, areVariants⟩

theorem loopRule_forkOnce (worker : Worker) :
    LoopRule isFree worker.forkOnce worker.levels fun inKeyframes file row row' =>
      nodesOf row' = (forkNodes worker.toggle inKeyframes file (nodesOf row)).value where
  nil _ _ := rfl
  keepLeaf := by
    intro inKeyframes file id source content rest rest' _ isRest
    rw [nodesOf_cons, isRest]
    rfl
  keepBlock := by
    intro inKeyframes file id source head settled children children' rest rest' notFree isBelow
      isRest
    rw [nodesOf_cons, Tagged.node, isRest, isBelow]
    cases head with
    | rule selector =>
        obtain rfl : inKeyframes = true := by simpa [isFree_rule] using notFree
        rfl
    | sheet => rfl
    | atRule => rfl
  workLeaf := by
    intro inKeyframes id source content free
    cases free
  workBlock := by
    intro inKeyframes id source head settled children free few stage holder front back isContainer
      noCursors holds
    obtain ⟨selector, rfl, rfl⟩ := exists_rule_of_isFree free
    refine (turns_forkOnce few isContainer noCursors holds).mono ?_
    rintro _ _ ⟨added, rfl, areVariants⟩
    refine ⟨_, true, children, added, rfl, rfl, Nat.le_refl _,
      fun children'' rest rest' isBelow isRest => ?_⟩
    have below : nodesOf children'' =
        (forkNodes worker.toggle false source (nodesOf children)).value :=
      isBelow
    rw [nodesOf_cons, nodesOf_append, Tagged.node, isRest, below, areVariants]
    cases settled <;> rfl

/-- The copies converted for the preview that a row has become, however far down that is done as
long as it is far enough. -/
def PlacedAs (toggle : Toggle) (inKeyframes : Bool) (row row' : List Tagged) : Prop :=
  ∀ levels, heightIn (nodesOf row) ≤ levels →
    nodesOf row' = (convertCopies toggle levels inKeyframes (nodesOf row)).value

theorem PlacedAs.block {toggle : Toggle} {inKeyframes : Bool} {tree' : Tagged}
    {rest rest' : List Tagged}
    (isHere : ∀ levels, heightIn (nodesOf children) ≤ levels →
      tree'.node = (convertCopy toggle (convertCopies toggle levels) inKeyframes
        (.block source head settled (nodesOf children))).value)
    (isRest : PlacedAs toggle inKeyframes rest rest') :
    PlacedAs toggle inKeyframes (.block id source head settled children :: rest)
      (tree' :: rest') := by
  intro levels within
  obtain ⟨here, later⟩ := Nat.max_le.mp within
  cases levels with
  | zero => exact absurd here (Nat.not_succ_le_zero _)
  | succ levels =>
      rw [nodesOf_cons, nodesOf_cons, Tagged.node, value_convertCopies_block, isRest _ later,
        isHere levels (Nat.le_of_succ_le_succ here)]

theorem loopRule_placeRule (worker : Worker) :
    LoopRule isFree worker.placeRule worker.levels fun inKeyframes _ row row' =>
      PlacedAs worker.toggle inKeyframes row row' where
  nil inKeyframes _ := by
    intro levels _
    cases levels <;> rfl
  keepLeaf := by
    intro inKeyframes file id source content rest rest' _ isRest levels within
    have later : heightIn (nodesOf rest) ≤ levels := (Nat.max_le.mp within).2
    rw [nodesOf_cons, nodesOf_cons, Tagged.node, value_convertCopies_leaf, isRest levels later]
  keepBlock := by
    intro inKeyframes file id source head settled children children' rest rest' notFree isBelow
      isRest
    refine .block (fun levels within => ?_) isRest
    rw [Tagged.node, isBelow levels within]
    cases head with
    | rule selector =>
        obtain rfl : inKeyframes = true := by simpa [isFree_rule] using notFree
        rfl
    | sheet => rfl
    | atRule => rfl
  workLeaf := by
    intro inKeyframes id source content free
    cases free
  workBlock := by
    intro inKeyframes id source head settled children free few stage holder front back isContainer
      noCursors holds
    obtain ⟨selector, rfl, rfl⟩ := exists_rule_of_isFree free
    refine ((turns_placeRule few holds.ofSingle).single ?_ holds).mono ?_
    · rintro _ _ ⟨children', rfl, -⟩
      simp only [id_block]
    · rintro _ _ ⟨_, rfl, children', rfl, areNodes, same⟩
      refine ⟨_, true, children', [], rfl, same.rules false, Nat.le_of_eq same.height,
        fun children'' rest rest' isBelow isRest => .block (fun levels within => ?_) isRest⟩
      rw [Tagged.node, isBelow levels (same.height ▸ within), areNodes]
      rfl

/-! ## Treated nodes -/

variable (tree) in
theorem Turns.eachRule {σ : Type} {shape : σ → List Entry} {state : σ} {work : NodeId → Step Unit}
    {post : Unit → σ → Prop} (holds : stage.Holds (tree.entries parent))
    (within : tree.node.height ≤ worker.levels)
    (turns : Turns (tree.treatedRules.forM work) stage shape state post) :
    Turns (worker.eachRule work tree.id) stage shape state post := by
  rw [Worker.eachRule]
  refine Turns.get ?_
  rw [rules_eq holds within]
  exact turns

/-- A loop over the rules of an at-rule. -/
theorem LoopRule.turns_atRule {work : NodeId → Step Unit}
    {Becomes : Bool → Option String → List Tagged → List Tagged → Prop}
    (rule : LoopRule isFree work worker.levels Becomes) {name params : String} {hasBlock : Bool}
    (within : heightIn (nodesOf children) < worker.levels)
    (holds : stage.Holds
      (Tagged.entries parent (.block id source (.atRule name params hasBlock) settled children))) :
    Turns (worker.eachRule work id) stage (Tagged.entries parent)
      (.block id source (.atRule name params hasBlock) settled children) fun _ turned =>
        ∃ children', turned = .block id source (.atRule name params hasBlock) settled children' ∧
          Becomes (Head.atRule name params hasBlock).isKeyframes source children children' :=
  Turns.eachRule (.block id source (.atRule name params hasBlock) settled children) holds within
    (rule.turnsBelow (Nat.le_of_lt within) holds)

theorem turns_scopeTreated (treated : tree.node.isTreated)
    (within : tree.node.height ≤ worker.levels)
    (holds : stage.Holds (holder.part front back [tree])) :
    Turns (worker.eachRule worker.guardRule tree.id) stage (holder.part front back) [tree]
      fun _ turned => nodesOf turned = [worker.toggle.scopeTreated tree.node] := by
  cases tree with
  | leaf => cases treated
  | block id source head settled children =>
      cases head with
      | sheet => cases treated
      | rule selector =>
          refine Turns.eachRule (.block id source (.rule selector) settled children) holds.ofSingle
            within ?_
          rw [treatedRules, forM_singleton]
          refine ((turns_guardRule holds.ofSingle).singleEq (by simp) holds).mono ?_
          rintro _ _ rfl
          rfl
      | atRule name params hasBlock =>
          refine (((loopRule_guardRule worker worker.levels).turns_atRule within
            holds.ofSingle).single ?_ holds).mono ?_
          · rintro _ _ ⟨children', rfl, -⟩
            simp only [id_block]
          · rintro _ _ ⟨_, rfl, children', rfl, areScoped⟩
            rw [nodesOf_cons, Tagged.node, areScoped]
            rfl

theorem turns_forkTreated (treated : tree.node.isTreated)
    (within : tree.node.height ≤ worker.levels) (isContainer : holder.cell.kind.isContainer)
    (noCursors : holder.cell.cursors = [])
    (holds : stage.Holds (holder.part front back [tree])) :
    Turns (worker.eachRule worker.forkOnce tree.id) stage (holder.part front back) [tree]
      fun _ turned =>
        nodesOf turned = (worker.toggle.forkTreated holder.cell.source tree.node).value := by
  cases tree with
  | leaf => cases treated
  | block id source head settled children =>
      cases head with
      | sheet => cases treated
      | rule selector =>
          refine Turns.eachRule (.block id source (.rule selector) settled children) holds.ofSingle
            within ?_
          rw [treatedRules, forM_singleton]
          refine (turns_forkOnce within isContainer noCursors holds).mono ?_
          rintro _ _ ⟨added, rfl, areVariants⟩
          rw [nodesOf_cons, areVariants]
          cases settled <;> rfl
      | atRule name params hasBlock =>
          refine (((loopRule_forkOnce worker).turns_atRule within holds.ofSingle).single ?_
            holds).mono ?_
          · rintro _ _ ⟨children', rfl, -⟩
            simp only [id_block]
          · rintro _ _ ⟨_, rfl, children', rfl, areForked⟩
            rw [nodesOf_cons, Tagged.node, areForked]
            rfl

/-- What is treated is a rule or an at-rule. -/
theorem exists_head_of_isTreated {node : Node} (treated : node.isTreated) :
    ∃ head, node.kind = .block head ∧ head ≠ .sheet := by
  cases node with
  | leaf => cases treated
  | block source head settled children =>
      refine ⟨head, rfl, ?_⟩
      rintro rfl
      cases treated

theorem kind_copy (node : Node) : node.copy.kind = node.kind := by
  cases node <;> rfl

theorem turns_previewCopy {node : Node} (treated : node.isTreated) (isCopy : tree.node = node.copy)
    (within : node.height ≤ worker.levels) (holds : stage.Holds (tree.entries parent)) :
    Turns (worker.eachRule worker.placeRule tree.id) stage (Tagged.entries parent) tree
      fun _ turned => turned.id = tree.id ∧
        [turned.node] = (worker.toggle.previewCopy node).value := by
  have sameHeight : tree.node.height = node.height := by rw [isCopy, height_copy]
  rw [← sameHeight] at within
  obtain ⟨head, isKind, notSheet⟩ := exists_head_of_isTreated treated
  rw [← kind_copy, ← isCopy] at isKind
  rw [previewCopy, ← isCopy]
  cases tree with
  | leaf => cases isKind
  | block id source head settled children =>
      have few : heightIn (nodesOf children) < worker.levels := within
      cases isKind
      cases head with
      | sheet => exact absurd rfl notSheet
      | rule selector =>
          refine Turns.eachRule (.block id source (.rule selector) settled children) holds within ?_
          rw [treatedRules, forM_singleton]
          refine (turns_placeRule few holds).mono ?_
          rintro _ _ ⟨children', rfl, areNodes, -⟩
          refine ⟨by simp only [id_block], ?_⟩
          rw [Tagged.node, areNodes]
          rfl
      | atRule name params hasBlock =>
          refine ((loopRule_placeRule worker).turns_atRule few holds).mono ?_
          rintro _ _ ⟨children', rfl, arePlaced⟩
          refine ⟨by simp only [id_block], ?_⟩
          dsimp only [Tagged.node]
          rw [height_block, arePlaced _ (Nat.le_refl _), value_convertCopies_block]
          rfl

end Step

end ContainerPreview
