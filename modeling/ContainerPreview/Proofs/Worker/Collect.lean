import ContainerPreview.Proofs.Toggle.Nest
import ContainerPreview.Proofs.Worker.Treated

/-!
# Collecting the groups of a media block

Before a pass treats what is in a media block, it goes over the block and the media blocks directly
in it, is done with them, and puts down for each which of its nodes are to be treated.  A relation
between the rows of children before and after tells what it puts down.
-/

namespace ContainerPreview

open Tagged

namespace Tagged

/-- The trees of a row that are treated as a whole in a media block. -/
def treated (row : List Tagged) : List Tagged :=
  row.filter fun tree => tree.node.isTreated

/-- Collecting turns the children of a media block under conditions into others and gives the groups
of the media blocks directly in it. -/
inductive Collects (hook : Option Media.Hook) :
    List String → List Tagged → List Tagged → List Group → Prop
  | nil (conditions : List String) : Collects hook conditions [] [] []
  | other {conditions : List String} {tree : Tagged} {rest rest' : List Tagged}
      {groups : List Group} (isOther : tree.node.isMedia = false)
      (isRest : Collects hook conditions rest rest' groups) :
      Collects hook conditions (tree :: rest) (tree :: rest') groups
  | never {conditions : List String} {id : NodeId} {source : Option String} {params : String}
      {hasBlock settled : Bool} {children children' rest rest' : List Tagged}
      {groups : List Group} (never : (Media.conditions hook params).value = none)
      (areSettled : nodesOf children' = settleMediaIn (nodesOf children))
      (isRest : Collects hook conditions rest rest' groups) :
      Collects hook conditions
        (.block id source (.atRule "media" params hasBlock) settled children :: rest)
        (.block id source (.atRule "media" params hasBlock) true children' :: rest') groups
  | nested {conditions own : List String} {id : NodeId} {source : Option String} {params : String}
      {hasBlock settled : Bool} {children children' rest rest' : List Tagged}
      {inner groups : List Group} (isOwn : (Media.conditions hook params).value = some own)
      (isInner : Collects hook (Media.combine conditions own) children children' inner)
      (isRest : Collects hook conditions rest rest' groups) :
      Collects hook conditions
        (.block id source (.atRule "media" params hasBlock) settled children :: rest)
        (.block id source (.atRule "media" params hasBlock) true children' :: rest')
        (⟨Media.combine conditions own, (treated children).map Tagged.id⟩ :: (inner ++ groups))

end Tagged

theorem isAtRule_media (head : Head) :
    Forest.isAtRule (some "media") (.block head) = head.isMedia := by
  cases head <;> rfl

namespace Step

open Stage Toggle

variable {stage : Stage} {parent : Option NodeId} {holder : Entry} {front back : List NodeId}
  {id : NodeId} {source : Option String} {head : Head} {settled : Bool} {row children : List Tagged}
  {worker : Worker} {tree : Tagged} {conditions : List String}

/-! ## Being done with media blocks -/

theorem loopRule_settle (limit : Nat) :
    LoopRule (fun _ kind => Forest.isAtRule (some "media") kind) settle limit fun _ _ row row' =>
      nodesOf row' = settleMediaIn (nodesOf row) where
  nil _ _ := rfl
  keepLeaf := by
    intro inKeyframes file id source content rest rest' _ isRest
    rw [nodesOf_cons, isRest]
    rfl
  keepBlock := by
    intro inKeyframes file id source head settled children children' rest rest' isOther isBelow
      isRest
    rw [isAtRule_media] at isOther
    simp [Tagged.node, settleMediaIn, Node.settleMedia, isBelow, isRest, isOther]
  workLeaf := by
    intro inKeyframes id source content isMedia
    cases isMedia
  workBlock := by
    intro inKeyframes id source head settled children isMedia _ stage holder front back _ _ holds
    rw [isAtRule_media] at isMedia
    refine ((turns_settle holds.ofSingle).singleEq (by simp) holds).mono ?_
    rintro _ _ rfl
    refine ⟨head, true, children, [], rfl, rfl, Nat.le_refl _,
      fun children'' rest rest' isBelow isRest => ?_⟩
    simp [Tagged.node, settleMediaIn, Node.settleMedia, isBelow, isRest, isMedia]

theorem turns_settleMedia (within : heightIn (nodesOf children) < worker.levels)
    (holds : stage.Holds (Tagged.entries parent (.block id source head settled children))) :
    Turns (worker.settleMedia id) stage (Tagged.entries parent)
      (.block id source head settled children) fun _ turned => ∃ children',
        turned = .block id source head settled children' ∧
          nodesOf children' = settleMediaIn (nodesOf children) := by
  have found : (stage.1.belowTo worker.levels id).filter (fun node =>
      Forest.isAtRule (some "media") (stage.1.cell node).kind) =
        select (fun _ kind => Forest.isAtRule (some "media") kind) head.isKeyframes children :=
    filter_belowTo (fun _ kind => Forest.isAtRule (some "media") kind) holds within
  rw [Worker.settleMedia]
  refine Turns.get ?_
  dsimp only
  rw [found]
  exact (loopRule_settle worker.levels).turnsBelow (Nat.le_of_lt within) holds

/-! ## Collecting -/

/-- Whether there are rules to treat can be seen from the nodes. -/
theorem select_isFree_eq_nil_iff (inKeyframes : Bool) (row : List Tagged) :
    select isFree inKeyframes row = [] ↔ anyFreeRule inKeyframes (nodesOf row) = false := by
  induction row using tagged_induction generalizing inKeyframes with
  | nil => exact iff_of_true rfl rfl
  | leaf id source content rest ofRest =>
      rw [select_leaf, nodesOf_cons]
      simpa [isFree, Forest.isRule, Tagged.node, anyFreeRule, Node.hasFreeRule] using
        ofRest inKeyframes
  | block id source head settled children rest ofChildren ofRest =>
      rw [select_block, nodesOf_cons, List.append_eq_nil_iff, List.append_eq_nil_iff, ofChildren,
        ofRest]
      cases head <;> cases inKeyframes <;>
        simp [isFree, Forest.isRule, Tagged.node, anyFreeRule, Node.hasFreeRule, Head.isKeyframes]

theorem isTreated_atRule (id : NodeId) (source : Option String) {name : String}
    (isOther : name ≠ "media") (params : String) (hasBlock settled : Bool)
    (children : List Tagged) :
    (Tagged.block id source (.atRule name params hasBlock) settled children).node.isTreated =
      (!(Head.atRule name params hasBlock).isKeyframes &&
        !(select isFree (Head.atRule name params hasBlock).isKeyframes children).isEmpty) := by
  cases isKeyframes : (Head.atRule name params hasBlock).isKeyframes with
  | true => simp [Tagged.node, Node.isTreated, isKeyframes]
  | false =>
      rw [Bool.eq_iff_iff]
      simp [Tagged.node, Node.isTreated, isKeyframes, Head.isMedia, isOther,
        select_isFree_eq_nil_iff]

/-- The groups of a media block: its own one and those that its children give. -/
def Gathers (hook : Option Media.Hook) (conditions : List String) (row row' : List Tagged)
    (groups : List Group) : Prop :=
  ∃ nested, groups = ⟨conditions, (treated row).map Tagged.id⟩ :: nested ∧
    Collects hook conditions row row' nested

/-- What collecting finds at one child, and what the child becomes. -/
def Finds (hook : Option Media.Hook) (conditions : List String) (tree : Tagged)
    (found : List NodeId × List Group) (turned : List Tagged) : Prop :=
  ∃ tree', turned = [tree'] ∧ found.1 = (treated [tree]).map Tagged.id ∧
    ∀ rest rest' groups, Collects hook conditions rest rest' groups →
      Collects hook conditions (tree :: rest) (tree' :: rest') (found.2 ++ groups)

/-- Collecting finds groups at the children of blocks that are lower than a tree. -/
def GathersBelow (worker : Worker) (collect : List String → NodeId → Step (List Group))
    (tree : Tagged) : Prop :=
  ∀ {stage : Stage} {holder : Entry} {conditions row},
    heightIn (nodesOf row) < tree.node.height → stage.Holds (holder.part [] [] row) →
      Turns (collect conditions holder.id) stage (holder.part [] []) row
        (fun groups turned => Gathers worker.toggle.hook conditions row turned groups)

variable {collect : List String → NodeId → Step (List Group)} {params : String} {hasBlock : Bool}

theorem turns_collectChild_media
    (ofInner : GathersBelow worker collect
      (.block id source (.atRule "media" params hasBlock) settled children))
    (within : heightIn (nodesOf children) < worker.levels)
    (holds : stage.Holds (holder.part front back
      [.block id source (.atRule "media" params hasBlock) settled children])) :
    Turns (worker.collectChild collect conditions id) stage (holder.part front back)
      [.block id source (.atRule "media" params hasBlock) settled children]
      (Finds worker.toggle.hook conditions
        (.block id source (.atRule "media" params hasBlock) settled children)) := by
  rw [Worker.collectChild]
  refine Turns.get ?_
  dsimp only
  rw [head?_block holds.ofSingle]
  refine Turns.bind ((turns_settle holds.ofSingle).singleEq (by simp only [id_block]) holds) ?_
  rintro _ stage' _ holds' rfl
  cases isOwn : (Media.conditions worker.toggle.hook params).value with
  | none =>
      dsimp only
      refine Turns.bind ((turns_settleMedia within holds'.ofSingle).single ?_ holds') ?_
      · rintro _ _ ⟨children', rfl, -⟩
        simp only [id_block]
      · rintro _ stage'' _ holds'' ⟨_, rfl, children', rfl, areSettled⟩
        exact Turns.pure holds'' ⟨_, rfl, rfl, fun _ _ _ => .never isOwn areSettled⟩
  | some own =>
      dsimp only
      refine Turns.bind (Turns.inFirst holds' fun holdsBelow =>
        ofInner (Nat.lt_succ_self _) holdsBelow) ?_
      rintro groups stage'' _ holds'' ⟨children', rfl, inner, rfl, isInner⟩
      exact Turns.pure holds'' ⟨_, rfl, rfl, fun _ _ _ => .nested isOwn isInner⟩

theorem turns_collectChild_atRule {name : String} (isOther : name ≠ "media")
    (within : heightIn (nodesOf children) < worker.levels)
    (holds : stage.Holds
      (holder.part front back [.block id source (.atRule name params hasBlock) settled children])) :
    Turns (worker.collectChild collect conditions id) stage (holder.part front back)
      [.block id source (.atRule name params hasBlock) settled children]
      (Finds worker.toggle.hook conditions
        (.block id source (.atRule name params hasBlock) settled children)) := by
  have notMedia : (Tagged.block id source (.atRule name params hasBlock) settled
      children).node.isMedia = false := by
    simp [Tagged.node, Node.isMedia, Node.head?, Head.isMedia, isOther]
  have areRules := rules_eq holds.ofSingle within
  rw [id_block, treatedRules] at areRules
  have isTreated := isTreated_atRule id source isOther params hasBlock settled children
  rw [Worker.collectChild]
  refine Turns.get ?_
  dsimp only
  rw [head?_block holds.ofSingle]
  split
  next same => cases same; exact absurd rfl isOther
  next same => cases same
  next same =>
    cases same
    rw [areRules, ← isTreated]
    split
    next treated =>
      exact Turns.pure holds
        ⟨_, rfl, by simp [Tagged.treated, treated], fun _ _ _ => .other notMedia⟩
    next untreated =>
      exact Turns.pure holds
        ⟨_, rfl, by simp [Tagged.treated, untreated], fun _ _ _ => .other notMedia⟩
  next other => exact absurd rfl (other _ _ _)

theorem turns_collectChild (ofInner : GathersBelow worker collect tree)
    (within : tree.node.height ≤ worker.levels)
    (holds : stage.Holds (holder.part front back [tree])) :
    Turns (worker.collectChild collect conditions tree.id) stage (holder.part front back) [tree]
      (Finds worker.toggle.hook conditions tree) := by
  cases tree with
  | leaf id source content =>
      have isKind : (stage.1.cell id).kind = .leaf content :=
        congrArg Cell.kind (holds.ofSingle.isIn _ List.mem_cons_self).cell
      rw [Worker.collectChild]
      refine Turns.get ?_
      dsimp only
      rw [id_leaf, Forest.head?, isKind, Kind.head?_leaf]
      exact Turns.pure holds ⟨_, rfl, rfl, fun _ _ _ => .other rfl⟩
  | block id source head settled children =>
      cases head with
      | sheet =>
          rw [Worker.collectChild]
          refine Turns.get ?_
          dsimp only
          rw [id_block, head?_block holds.ofSingle]
          exact Turns.pure holds ⟨_, rfl, rfl, fun _ _ _ => .other rfl⟩
      | rule selector =>
          rw [Worker.collectChild]
          refine Turns.get ?_
          dsimp only
          rw [id_block, head?_block holds.ofSingle]
          exact Turns.pure holds ⟨_, rfl, rfl, fun _ _ _ => .other rfl⟩
      | atRule name params hasBlock =>
          by_cases isMedia : name = "media"
          · subst isMedia
            exact turns_collectChild_media ofInner within holds
          · exact turns_collectChild_atRule isMedia within holds

theorem treated_append (left right : List Tagged) :
    treated (left ++ right) = treated left ++ treated right :=
  List.filter_append ..

/-- Collecting goes over the children of a block, one after the other. -/
theorem turns_mapM_collectChild
    (ofInner : ∀ tree ∈ row, GathersBelow worker collect tree)
    (within : heightIn (nodesOf row) ≤ worker.levels)
    (holds : stage.Holds (holder.part front back row)) :
    Turns ((row.map Tagged.id).mapM (worker.collectChild collect conditions)) stage
      (holder.part front back) row fun found turned =>
        found.flatMap Prod.fst = (treated row).map Tagged.id ∧
          Collects worker.toggle.hook conditions row turned (found.flatMap Prod.snd) := by
  induction row generalizing stage front with
  | nil => exact Turns.pure holds ⟨rfl, .nil conditions⟩
  | cons tree rest ofRest =>
      obtain ⟨here, later⟩ := Nat.max_le.mp within
      obtain ⟨ofTree, ofOthers⟩ := List.forall_mem_cons.mp ofInner
      have holdsFirst := (Entry.part_append holder front back [tree] rest ▸ holds).left
      rw [List.map_cons, List.mapM_cons]
      refine Turns.bind ((turns_collectChild ofTree here holdsFirst).onLeft rest holds) ?_
      rintro found stage' _ holds' ⟨_, rfl, tree', rfl, areOwn, collects⟩
      have holdsRest := (holds'.perm (Entry.part_append_perm ..)).left
      refine Turns.bind ((ofRest ofOthers later holdsRest).onRight [tree'] holds') ?_
      rintro others stage'' _ holds'' ⟨rest', rfl, areOthers, isRest⟩
      refine Turns.pure holds'' ⟨?_, ?_⟩
      · rw [List.flatMap_cons, areOwn, areOthers, ← List.map_append, ← treated_append]
        rfl
      · rw [List.flatMap_cons]
        exact collects _ _ _ isRest

/-- Collecting finds the groups of a block, as long as the stack reaches down to the nodes in it. -/
theorem turns_collect {levels : Nat} (atMost : levels ≤ worker.levels)
    (within : heightIn (nodesOf row) < levels) (holds : stage.Holds (holder.part [] [] row)) :
    Turns (worker.collect levels conditions holder.id) stage (holder.part [] []) row
      (fun groups turned => Gathers worker.toggle.hook conditions row turned groups) := by
  induction levels generalizing stage holder conditions row with
  | zero => exact absurd within (Nat.not_lt_zero _)
  | succ levels ofFewer =>
      have areChildren : stage.1.children holder.id = row.map Tagged.id := by
        have isHolder := congrArg Cell.children (holds.isIn _ List.mem_cons_self).cell
        simpa [Forest.children, Entry.withChildren] using isHolder
      rw [Worker.collect]
      refine Turns.get ?_
      dsimp only
      rw [areChildren]
      refine Turns.bind (turns_mapM_collectChild (fun tree member {_ _ _ _} lower holds =>
        ofFewer (Nat.le_of_succ_le atMost) ?_ holds) (Nat.le_of_lt (within.trans_le atMost))
          holds) ?_
      · have isLower : tree.node.height ≤ heightIn (nodesOf row) :=
          height_le_heightIn (nodesOf_eq_map row ▸ List.mem_map_of_mem member)
        exact lower.trans_le (isLower.trans (Nat.le_of_lt_succ within))
      · rintro found stage' turned holds' ⟨areOwn, isNested⟩
        exact Turns.pure holds' ⟨_, by rw [areOwn], isNested⟩

end Step

end ContainerPreview
