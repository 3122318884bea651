import ContainerPreview.Proofs.Worker.Collect

/-!
# Treating the groups of a media block

A group is treated by making a container block with converted copies of its nodes, which stands
nowhere yet, and by scoping the nodes to the viewport; or by forking them where they are.  The
groups of a media block are treated one after the other, the own one first, and together they leave
what the treatment of the nodes of the block says.
-/

namespace ContainerPreview

open Tagged

namespace Tagged

/-- The children of a media block after its own group has been treated.  The groups of the media
blocks directly in it are still to come. -/
inductive Half (toggle : Toggle) (conditions : List String) (file : Option String) :
    List Tagged → List Tagged → List Group → Prop
  | nil : Half toggle conditions file [] [] []
  | done {tree : Tagged} {turned rest rest' : List Tagged} {groups : List Group}
      (isDone : nodesOf turned = (toggle.treatNode conditions file tree.node).nodes)
      (noContainers : (toggle.treatNode conditions file tree.node).containers = [])
      (isRest : Half toggle conditions file rest rest' groups) :
      Half toggle conditions file (tree :: rest) (turned ++ rest') groups
  | nested {own : List String} {id : NodeId} {source : Option String} {params : String}
      {hasBlock settled : Bool} {children children' rest rest' : List Tagged}
      {inner groups : List Group} (isOwn : (Media.conditions toggle.hook params).value = some own)
      (isInner : Collects toggle.hook (Media.combine conditions own) children children' inner)
      (isRest : Half toggle conditions file rest rest' groups) :
      Half toggle conditions file
        (.block id source (.atRule "media" params hasBlock) settled children :: rest)
        (.block id source (.atRule "media" params hasBlock) true children' :: rest')
        (⟨Media.combine conditions own, (treated children).map Tagged.id⟩ :: (inner ++ groups))

end Tagged

namespace Step

open Stage Toggle

/-! ## Steps that also make trees -/

section Yields

variable {α β σ τ : Type} {step : Step α} {next : α → Step β} {stage : Stage}
  {shape : σ → List Entry} {shape' : τ → List Entry} {state : σ}
  {post : α → List Tagged → σ → Prop} {post' : β → List Tagged → σ → Prop}

/-- The step succeeds and keeps to a shape, and makes trees that stand nowhere. -/
def Yields (step : Step α) (stage : Stage) (shape : σ → List Entry) (state : σ)
    (post : α → List Tagged → σ → Prop) : Prop :=
  Makes step stage (shape state) fun value after =>
    ∃ made turned, after = shape turned ++ entriesIn none made ∧ post value made turned

theorem Turns.yields {post : α → σ → Prop} (turns : Turns step stage shape state post) :
    Yields step stage shape state fun value made turned => made = [] ∧ post value turned := by
  refine Makes.mono turns ?_
  rintro value _ ⟨turned, rfl, isPost⟩
  exact ⟨[], turned, by simp, rfl, isPost⟩

namespace Yields

theorem pure (holds : stage.Holds (shape state)) {value : α} (isPost : post value [] state) :
    Yields (Pure.pure value : Step α) stage shape state post :=
  Makes.pure holds ⟨[], state, by simp, isPost⟩

theorem mono {post' : α → List Tagged → σ → Prop} (yields : Yields step stage shape state post)
    (weaker : ∀ value made turned, post value made turned → post' value made turned) :
    Yields step stage shape state post' := by
  refine Makes.mono yields ?_
  rintro value _ ⟨made, turned, rfl, isPost⟩
  exact ⟨made, turned, rfl, weaker value made turned isPost⟩

/-- What the second step makes comes after what the first one has made. -/
theorem bind (first : Yields step stage shape state post)
    (second : ∀ value stage' made turned, stage'.Holds (shape turned) → post value made turned →
      Yields (next value) stage' shape turned fun value' made' => post' value' (made ++ made')) :
    Yields (step >>= next) stage shape state post' := by
  refine Makes.bind first ?_
  rintro value stage' _ reshapes ⟨made, turned, rfl, isPost⟩
  refine (second value stage' made turned reshapes.holds.left isPost).within (.refl _)
    reshapes.holds ?_
  rintro value' _ ⟨made', turned', rfl, isPost'⟩
  refine ⟨shape turned' ++ entriesIn none (made ++ made'), perm_of_coe ?_, made ++ made', turned',
    rfl, isPost'⟩
  simp only [entriesIn_append, ← Multiset.coe_add]
  abel

/-- What a step does to a part of what there is, it does to the whole. -/
theorem within {rest : List Entry} (put : σ → τ) (yields : Yields step stage shape state post)
    (same : ∀ state, (shape' (put state)).Perm (shape state ++ rest))
    (holds : stage.Holds (shape' (put state))) :
    Yields step stage shape' (put state) fun value made turned =>
      ∃ part, turned = put part ∧ post value made part := by
  refine Makes.within yields (same state) holds ?_
  rintro value _ ⟨made, part, rfl, isPost⟩
  refine ⟨shape' (put part) ++ entriesIn none made, perm_of_coe ?_, made, put part, rfl, part, rfl,
    isPost⟩
  have isSame := Multiset.coe_eq_coe.mpr (same part)
  simp only [← Multiset.coe_add, isSame]
  abel

end Yields

end Yields

/-! ## The own group of a block -/

variable {stage : Stage} {holder : Entry} {front back : List NodeId} {row row' : List Tagged}
  {worker : Worker} {conditions : List String} {groups : List Group}

theorem map_id_treated_cons (tree : Tagged) (rest : List Tagged) :
    (treated (tree :: rest)).map Tagged.id =
      (treated [tree]).map Tagged.id ++ (treated rest).map Tagged.id := by
  rw [← List.map_append, ← treated_append, List.singleton_append]

theorem treated_media (id : NodeId) (source : Option String) (params : String)
    (hasBlock settled : Bool) (children : List Tagged) :
    treated [.block id source (.atRule "media" params hasBlock) settled children] = [] := by
  simp [treated, Tagged.node, Node.isTreated, Head.isMedia]

/-- Working on the own nodes of a block treats them, if the work does so with each of them. -/
theorem turns_half {work : NodeId → Step Unit}
    (collects : Collects worker.toggle.hook conditions row row' groups)
    (works : ∀ {stage : Stage} {front back tree}, tree.node.isTreated →
      tree.node.height ≤ worker.levels → stage.Holds (holder.part front back [tree]) →
        Turns (worker.eachRule work tree.id) stage (holder.part front back) [tree] fun _ turned =>
          nodesOf turned = (worker.toggle.treat conditions holder.cell.source tree.node).nodes)
    (within : heightIn (nodesOf row) ≤ worker.levels)
    (holds : stage.Holds (holder.part front back row')) :
    Turns (((treated row).map Tagged.id).forM (worker.eachRule work)) stage (holder.part front back)
      row' fun _ turned =>
        Half worker.toggle conditions holder.cell.source row turned groups := by
  induction collects generalizing stage front with
  | nil => exact Turns.pure holds .nil
  | @other conditions tree rest rest' groups isOther isRest ofRest =>
      obtain ⟨here, later⟩ := Nat.max_le.mp within
      rw [map_id_treated_cons]
      refine Turns.forM_cons (fun turned => nodesOf turned =
          (treatNode worker.toggle conditions holder.cell.source tree.node).nodes) holds
        (fun holdsFirst => ?_) (fun holdsRest => ofRest works later holdsRest)
        fun turned turned' isDone isRest =>
          .done isDone (containers_treatNode_other _ _ _ isOther) isRest
      rw [treatNode_other _ _ _ isOther]
      cases isTreated : tree.node.isTreated with
      | true =>
          have isOne : treated [tree] = [tree] := by simp [treated, isTreated]
          rw [isOne, List.map_singleton, forM_singleton, if_pos rfl]
          exact works isTreated here holdsFirst
      | false =>
          have isNone : treated [tree] = [] := by simp [treated, isTreated]
          rw [isNone, if_neg Bool.false_ne_true]
          exact Turns.pure holdsFirst rfl
  | @never conditions id source params hasBlock settled children children' rest rest' groups never
      areSettled isRest ofRest =>
      have later := (Nat.max_le.mp within).2
      rw [map_id_treated_cons, treated_media]
      refine Turns.forM_cons (fun turned => turned =
          [.block id source (.atRule "media" params hasBlock) true children']) holds
        (fun holdsFirst => Turns.pure holdsFirst rfl)
        (fun holdsRest => ofRest works later holdsRest) ?_
      rintro _ turned' rfl isRest
      refine .done ?_ ?_ isRest
      · rw [Tagged.node, treatNode_media_of_none _ _ _ _ _ _ _ never, nodesOf_cons, Tagged.node,
          areSettled]
        rfl
      · rw [Tagged.node, treatNode_media_of_none _ _ _ _ _ _ _ never]
  | @nested conditions own id source params hasBlock settled children children' rest rest' inner
      groups isOwn isInner isRest _ ofRest =>
      have later := (Nat.max_le.mp within).2
      rw [map_id_treated_cons, treated_media]
      refine Turns.forM_cons (fun turned => turned =
          [.block id source (.atRule "media" params hasBlock) true children']) holds
        (fun holdsFirst => Turns.pure holdsFirst rfl)
        (fun holdsRest => ofRest works later holdsRest) ?_
      rintro _ turned' rfl isRest
      exact .nested isOwn isInner isRest

/-! ## Container blocks -/

variable {parent : Option NodeId} {whole rest : List Entry} {container : NodeId} {head : Head}
  {tree : Tagged} {made trees : List Tagged}

/-- A container block gets a converted copy of a node. -/
theorem inherit_none (tree : Tagged) : tree.inherit none = tree := by
  cases tree <;> simp [inherit]

/-- A tree is cloned beside all there is. -/
theorem makes_cloneBeside (isPart : whole.Perm (tree.entries parent ++ rest))
    (holds : stage.Holds whole) :
    Makes (Step.edit (Forest.clone tree.id [])) stage whole fun id after =>
      ∃ copy : Tagged, copy.id = id ∧ copy.node = tree.node.copy ∧
        after = whole ++ copy.entries none := by
  refine (makes_clone (holds.perm isPart).left).within isPart holds ?_
  rintro id _ ⟨copy, isId, isCopy, rfl⟩
  refine ⟨whole ++ copy.entries none, perm_of_coe ?_, copy, isId, isCopy, rfl⟩
  simp only [← Multiset.coe_add, Multiset.coe_eq_coe.mpr isPart]
  abel

/-- A container block gets a converted copy of a node. -/
theorem makes_addCopy (treated : tree.node.isTreated) (within : tree.node.height ≤ worker.levels)
    (isPart : whole.Perm (tree.entries parent ++ rest))
    (holds : stage.Holds (whole ++ (holderOf none container none head false).part [] [] made)) :
    Makes (worker.addCopy container tree.id) stage
      (whole ++ (holderOf none container none head false).part [] [] made) fun _ after =>
        ∃ copy : Tagged, [copy.node] = (worker.toggle.previewCopy tree.node).value ∧
          after =
            whole ++ (holderOf none container none head false).part [] [] (made ++ [copy]) := by
  let block := holderOf none container none head false
  have isWhole : (whole ++ block.part [] [] made).Perm
      (tree.entries parent ++ (rest ++ block.part [] [] made)) := by
    rw [← List.append_assoc]
    exact isPart.append_right _
  rw [Worker.addCopy]
  refine Makes.bind (makes_cloneBeside isWhole holds) ?_
  rintro _ stage₁ _ reshapes₁ ⟨copy, rfl, isCopy, rfl⟩
  have holds₁ := reshapes₁.holds
  refine Makes.bind ((turns_previewCopy treated isCopy within holds₁.right).frameLeft holds₁) ?_
  rintro _ stage₂ _ reshapes₂ ⟨_, rfl, placed, rfl, sameId, isPlaced⟩
  have holds₂ := reshapes₂.holds
  rw [List.append_assoc] at holds₂ ⊢
  have isSingle : block.part [] [] made ++ entriesIn none [placed] =
      block.part [] [] made ++ placed.entries none := by simp
  rw [← isSingle] at holds₂ ⊢
  rw [← sameId]
  refine ((makes_append holds₂.right rfl).frameLeft holds₂).mono ?_
  rintro _ _ ⟨_, rfl, rfl⟩
  refine ⟨placed, isPlaced, ?_⟩
  simp [block, holderOf, inherit_none]

/-- Converted copies of several nodes are put into a container block. -/
theorem makes_addCopies (treated : ∀ tree ∈ trees, tree.node.isTreated)
    (within : ∀ tree ∈ trees, tree.node.height ≤ worker.levels)
    (areParts : ∀ tree ∈ trees, ∃ rest, whole.Perm (tree.entries parent ++ rest))
    (holds : stage.Holds (whole ++ (holderOf none container none head false).part [] [] made)) :
    Makes ((trees.map Tagged.id).forM (worker.addCopy container)) stage
      (whole ++ (holderOf none container none head false).part [] [] made) fun _ after =>
        ∃ copies : List Tagged,
          nodesOf copies =
            trees.flatMap (fun tree => (worker.toggle.previewCopy tree.node).value) ∧
          after =
            whole ++ (holderOf none container none head false).part [] [] (made ++ copies) := by
  induction trees generalizing stage made with
  | nil => exact Makes.pure holds ⟨[], rfl, by simp⟩
  | cons tree trees ofTrees =>
      obtain ⟨isTreated, areTreated⟩ := List.forall_mem_cons.mp treated
      obtain ⟨here, later⟩ := List.forall_mem_cons.mp within
      obtain ⟨⟨rest, isPart⟩, areParts⟩ := List.forall_mem_cons.mp areParts
      rw [List.map_cons, List.forM_eq_forM, List.forM_cons]
      refine Makes.bind (makes_addCopy isTreated here isPart holds) ?_
      rintro _ stage' _ reshapes ⟨copy, isCopy, rfl⟩
      refine (ofTrees areTreated later areParts reshapes.holds).mono ?_
      rintro _ _ ⟨copies, areCopies, rfl⟩
      refine ⟨copy :: copies, ?_, by simp⟩
      rw [nodesOf_cons, areCopies, List.flatMap_cons, ← isCopy]
      rfl

/-- The container block of a group of nodes stands beside all there is. -/
theorem makes_containerBlock (conditions : List String)
    (treated : ∀ tree ∈ trees, tree.node.isTreated)
    (within : ∀ tree ∈ trees, tree.node.height ≤ worker.levels)
    (areParts : ∀ tree ∈ trees, ∃ rest, whole.Perm (tree.entries parent ++ rest))
    (holds : stage.Holds whole) :
    Makes (worker.containerBlock ⟨conditions, trees.map Tagged.id⟩) stage whole fun id after =>
      ∃ copies : List Tagged,
        nodesOf copies =
          trees.flatMap (fun tree => (worker.toggle.previewCopy tree.node).value) ∧
        after = whole ++ entriesIn none [.block id none
          (.atRule "container" (String.intercalate ", " conditions) true) false copies] := by
  rw [Worker.containerBlock]
  refine Makes.bind (makes_create holds _ none) ?_
  rintro container stage' _ reshapes rfl
  have holds' : stage'.Holds (whole ++ (holderOf none container none
      (.atRule "container" (String.intercalate ", " conditions) true) false).part [] [] []) :=
    reshapes.holds
  refine Makes.bind (makes_addCopies treated within areParts holds') ?_
  rintro _ stage'' _ reshapes' ⟨copies, areCopies, rfl⟩
  refine Makes.pure reshapes'.holds ⟨copies, areCopies, ?_⟩
  rw [entriesIn_singleton, entries_block]
  rfl

/-! ## One group -/

/-- The container block of the own group of a block, if there is one. -/
def ownContainer (treatment : Treatment) (conditions : List String) : List Node :=
  if treatment.copies.isEmpty then []
  else [.block none (.atRule "container" (String.intercalate ", " conditions) true) true
    treatment.copies]

theorem previewCopy_ne_nil {node : Node} (treated : node.isTreated) :
    (worker.toggle.previewCopy node).value ≠ [] := by
  intro isNil
  have isHeight := worker.toggle.heightIn_previewCopy node
  rw [isNil] at isHeight
  cases node with
  | leaf => cases treated
  | block => cases isHeight

/-- Collecting leaves what is treated as it is. -/
theorem treated_sublist (collects : Collects worker.toggle.hook conditions row row' groups) :
    (treated row).Sublist row' := by
  induction collects with
  | nil => exact .slnil
  | @other conditions tree rest rest' groups isOther isRest ofRest =>
      rw [treated, List.filter_cons]
      split
      · exact ofRest.cons_cons tree
      · exact ofRest.cons tree
  | never _ _ _ ofRest =>
      rw [← List.singleton_append, treated_append, treated_media]
      exact ofRest.cons _
  | nested _ _ _ _ ofRest =>
      rw [← List.singleton_append, treated_append, treated_media]
      exact ofRest.cons _

theorem exists_part_perm (holder : Entry) (front back : List NodeId) (member : tree ∈ row) :
    ∃ rest, (holder.part front back row).Perm (tree.entries (some holder.id) ++ rest) := by
  obtain ⟨left, right, rfl⟩ := List.append_of_mem member
  exact ⟨_, Entry.part_middle_perm holder front back left right tree⟩

theorem copies_eq (conditional : conditions.isEmpty = false) (file : Option String) :
    (treatNodes worker.toggle conditions file (nodesOf row)).copies =
      (treated row).flatMap fun tree => (worker.toggle.previewCopy tree.node).value := by
  rw [copies_treatNodes, if_neg (by simp [conditional]), nodesOf_eq_map, List.filter_map,
    List.flatMap_map]
  rfl

/-- Under conditions the own nodes of a block are guarded. -/
theorem turns_guardHalf (conditional : conditions.isEmpty = false)
    (collects : Collects worker.toggle.hook conditions row row' groups)
    (within : heightIn (nodesOf row) ≤ worker.levels)
    (holds : stage.Holds (holder.part front back row')) :
    Turns (((treated row).map Tagged.id).forM (worker.eachRule worker.guardRule)) stage
      (holder.part front back) row' fun _ turned =>
        Half worker.toggle conditions holder.cell.source row turned groups := by
  refine turns_half collects (fun treated within holds => ?_) within holds
  refine (turns_scopeTreated treated within holds).mono fun _ turned isScoped => ?_
  rw [isScoped, treat, conditional]
  rfl

/-- Treating a group without conditions forks its nodes. -/
theorem treatGroup_always (nodes : List NodeId) :
    worker.treatGroup ⟨[], nodes⟩ = do
      nodes.forM (worker.eachRule worker.forkOnce)
      return [] := by
  cases nodes <;> simp [Worker.treatGroup]

/-- A group without nodes is not treated. -/
theorem treatGroup_nil (conditions : List String) :
    worker.treatGroup ⟨conditions, []⟩ = do
      ([] : List NodeId).forM (worker.eachRule worker.guardRule)
      return [] := by
  simp [Worker.treatGroup]

/-- Treating a group makes its container block and guards its nodes. -/
theorem treatGroup_cons {conditions : List String} (conditional : conditions.isEmpty = false)
    {nodes : List NodeId} (areNodes : nodes.isEmpty = false) :
    worker.treatGroup ⟨conditions, nodes⟩ = do
      let container ← worker.containerBlock ⟨conditions, nodes⟩
      nodes.forM (worker.eachRule worker.guardRule)
      return [container] := by
  simp [Worker.treatGroup, conditional, areNodes]

/-- Treating the own group of a block has made its container block, if it has one, and leaves the
groups of the media blocks in it to come. -/
structure TreatsOwn (toggle : Toggle) (conditions : List String) (file : Option String)
    (row : List Tagged) (groups : List Group) (ids : List NodeId) (made turned : List Tagged) :
    Prop where
  ids : ids = made.map Tagged.id
  blocks : ∀ tree ∈ made, tree.node.isLeaf = false
  half : Half toggle conditions file row turned groups
  container : nodesOf (made.map Tagged.settle) =
    ownContainer (treatNodes toggle conditions file (nodesOf row)) conditions

/-- Without conditions the nodes of the group are forked where they are. -/
theorem yields_forkGroup (collects : Collects worker.toggle.hook [] row row' groups)
    (isContainer : holder.cell.kind.isContainer) (noCursors : holder.cell.cursors = [])
    (within : heightIn (nodesOf row) ≤ worker.levels)
    (holds : stage.Holds (holder.part front back row')) :
    Yields (worker.treatGroup ⟨[], (treated row).map Tagged.id⟩) stage (holder.part front back) row'
      (TreatsOwn worker.toggle [] holder.cell.source row groups) := by
  have turns := turns_half collects (fun treated within holds =>
    turns_forkTreated treated within isContainer noCursors holds) within holds
  rw [treatGroup_always]
  refine Yields.bind turns.yields ?_
  rintro _ stage' _ turned holds' ⟨rfl, isHalf⟩
  refine Yields.pure holds' ⟨rfl, List.forall_mem_nil _, isHalf, ?_⟩
  rw [ownContainer, copies_treatNodes]
  rfl

/-- A group without nodes gets no container block. -/
theorem yields_emptyGroup (conditional : conditions.isEmpty = false)
    (collects : Collects worker.toggle.hook conditions row row' groups) (isNil : treated row = [])
    (within : heightIn (nodesOf row) ≤ worker.levels)
    (holds : stage.Holds (holder.part front back row')) :
    Yields (worker.treatGroup ⟨conditions, (treated row).map Tagged.id⟩) stage
      (holder.part front back) row'
      (TreatsOwn worker.toggle conditions holder.cell.source row groups) := by
  have turns := turns_guardHalf conditional collects within holds
  rw [isNil, List.map_nil] at turns
  rw [isNil, List.map_nil, treatGroup_nil]
  refine Yields.bind turns.yields ?_
  rintro _ stage' _ turned holds' ⟨rfl, isHalf⟩
  refine Yields.pure holds' ⟨rfl, List.forall_mem_nil _, isHalf, ?_⟩
  rw [ownContainer, copies_eq conditional, isNil]
  rfl

/-- Under conditions the nodes of a group are copied into a container block and guarded. -/
theorem yields_containerGroup (conditional : conditions.isEmpty = false)
    (collects : Collects worker.toggle.hook conditions row row' groups)
    (someNodes : treated row ≠ [])
    (within : heightIn (nodesOf row) ≤ worker.levels)
    (holds : stage.Holds (holder.part front back row')) :
    Yields (worker.treatGroup ⟨conditions, (treated row).map Tagged.id⟩) stage
      (holder.part front back) row'
      (TreatsOwn worker.toggle conditions holder.cell.source row groups) := by
  have areTreated : ∀ tree ∈ treated row, tree.node.isTreated := fun tree member =>
    (List.mem_filter.mp member).2
  have areWithin : ∀ tree ∈ treated row, tree.node.height ≤ worker.levels := fun tree member =>
    (height_le_heightIn (nodesOf_eq_map row ▸
      List.mem_map_of_mem (List.mem_filter.mp member).1)).trans within
  have areParts : ∀ tree ∈ treated row, ∃ rest,
      (holder.part front back row').Perm (tree.entries (some holder.id) ++ rest) :=
    fun tree member => exists_part_perm holder front back ((treated_sublist collects).subset member)
  rw [treatGroup_cons conditional (by simpa using someNodes)]
  refine Makes.bind (makes_containerBlock conditions areTreated areWithin areParts holds) ?_
  rintro container stage' _ reshapes ⟨copies, areCopies, rfl⟩
  refine Makes.bind ((turns_guardHalf conditional collects within
    reshapes.holds.left).frameRight reshapes.holds) ?_
  rintro _ stage'' _ reshapes' ⟨_, rfl, turned, rfl, isHalf⟩
  refine Makes.pure reshapes'.holds
    ⟨[_], turned, rfl, rfl, List.forall_mem_singleton.mpr rfl, isHalf, ?_⟩
  have someCopies : (nodesOf copies).isEmpty = false := by
    obtain ⟨tree, member⟩ := List.exists_mem_of_ne_nil _ someNodes
    rw [areCopies, List.isEmpty_eq_false_iff]
    exact fun isNil => previewCopy_ne_nil (areTreated tree member)
      (List.flatMap_eq_nil_iff.mp isNil tree member)
  rw [ownContainer, copies_eq conditional, ← areCopies, someCopies]
  rfl

theorem yields_treatGroup (collects : Collects worker.toggle.hook conditions row row' groups)
    (isContainer : holder.cell.kind.isContainer) (noCursors : holder.cell.cursors = [])
    (within : heightIn (nodesOf row) ≤ worker.levels)
    (holds : stage.Holds (holder.part front back row')) :
    Yields (worker.treatGroup ⟨conditions, (treated row).map Tagged.id⟩) stage
      (holder.part front back) row'
      (TreatsOwn worker.toggle conditions holder.cell.source row groups) := by
  cases conditional : conditions.isEmpty with
  | true =>
      obtain rfl := List.isEmpty_iff.mp conditional
      exact yields_forkGroup collects isContainer noCursors within holds
  | false =>
      by_cases noNodes : treated row = []
      · exact yields_emptyGroup conditional collects noNodes within holds
      · exact yields_containerGroup conditional collects noNodes within holds

/-! ## All groups -/

/-- Treating groups has left the nodes of a treatment and made container blocks. -/
structure Treats (treatment : Treatment) (containers : List Node) (value : List (List NodeId))
    (made turned : List Tagged) : Prop where
  ids : value.flatten = made.map Tagged.id
  nodes : nodesOf turned = treatment.nodes
  containers : nodesOf (made.map Tagged.settle) = containers
  blocks : ∀ tree ∈ made, tree.node.isLeaf = false

/-- Treating the groups of any block that is not too high does what its treatment says. -/
def TreatsTo (worker : Worker) (levels : Nat) : Prop :=
  ∀ {stage : Stage} {holder : Entry} {front back row row' conditions groups},
    Collects worker.toggle.hook conditions row row' groups → holder.cell.kind.isContainer →
      holder.cell.cursors = [] → heightIn (nodesOf row) ≤ levels →
        stage.Holds (holder.part front back row') →
          Yields ((⟨conditions, (treated row).map Tagged.id⟩ :: groups).mapM worker.treatGroup)
            stage (holder.part front back) row'
            (Treats (treatNodes worker.toggle conditions holder.cell.source (nodesOf row))
              ((treatNodes worker.toggle conditions holder.cell.source (nodesOf row)).allContainers
                conditions))

theorem Yields.onRight {α : Type} {step : Step α} {post : α → List Tagged → List Tagged → Prop}
    (left : List Tagged) {right : List Tagged}
    (yields : Yields step stage (holder.part (front ++ left.map Tagged.id) back) right post)
    (holds : stage.Holds (holder.part front back (left ++ right))) :
    Yields step stage (holder.part front back) (left ++ right) fun value made turned =>
      ∃ right', turned = left ++ right' ∧ post value made right' :=
  yields.within (left ++ ·) (fun right => Entry.part_append_perm holder front back left right) holds

/-- The children of the first block of a row, apart from all else. -/
theorem part_block_perm (holder : Entry) (front back : List NodeId) (id : NodeId)
    (source : Option String) (head : Head) (settled : Bool) (rest children : List Tagged) :
    (holder.part front back (.block id source head settled children :: rest)).Perm
      ((holderOf (some holder.id) id source head settled).part [] [] children ++
        (holder.withChildren (front ++ id :: rest.map Tagged.id ++ back) ::
          entriesIn (some holder.id) rest)) := by
  rw [← entries_block]
  simpa [Entry.part] using List.perm_middle.symm

/-- What a step does to the children of the first block of a row, it does to the row. -/
theorem Yields.inFirst {α : Type} {step : Step α} {post : α → List Tagged → List Tagged → Prop}
    {id : NodeId} {source : Option String} {settled : Bool} {children rest : List Tagged}
    (holds : stage.Holds (holder.part front back (.block id source head settled children :: rest)))
    (yields : stage.Holds ((holderOf (some holder.id) id source head settled).part [] [] children) →
      Yields step stage ((holderOf (some holder.id) id source head settled).part [] []) children
        post) :
    Yields step stage (holder.part front back) (.block id source head settled children :: rest)
      fun value made turned => ∃ children',
        turned = .block id source head settled children' :: rest ∧ post value made children' :=
  have arranged := part_block_perm holder front back id source head settled rest
  (yields (holds.perm (arranged children)).left).within
    (fun children => .block id source head settled children :: rest) arranged holds

/-- The groups of the media blocks directly in a block are treated one block after the other. -/
theorem yields_nested {levels : Nat} (ofInner : ∀ fewer < levels, TreatsTo worker fewer)
    (half : Half worker.toggle conditions holder.cell.source row row' groups)
    (within : heightIn (nodesOf row) ≤ levels) (holds : stage.Holds (holder.part front back row')) :
    Yields (groups.mapM worker.treatGroup) stage (holder.part front back) row'
      (Treats (treatNodes worker.toggle conditions holder.cell.source (nodesOf row))
        (treatNodes worker.toggle conditions holder.cell.source (nodesOf row)).containers) := by
  induction half generalizing stage front with
  | nil => exact Yields.pure holds ⟨rfl, rfl, rfl, List.forall_mem_nil _⟩
  | @done tree turned rest rest' groups isDone noContainers isRest ofRest =>
      have later := (Nat.max_le.mp within).2
      have holdsRest := (holds.perm (Entry.part_append_perm ..)).left
      refine ((ofRest later holdsRest).onRight turned holds).mono ?_
      rintro value made _ ⟨turned', rfl, treats⟩
      refine ⟨treats.ids, ?_, ?_, treats.blocks⟩
      · rw [nodesOf_append, isDone, treats.nodes]
        rfl
      · rw [treats.containers, nodesOf_cons, treatNodes_cons, Treatment.containers_append,
          noContainers, List.nil_append]
  | @nested own id source params hasBlock settled children children' rest rest' inner groups isOwn
      isInner isRest ofRest =>
      obtain ⟨here, later⟩ := Nat.max_le.mp within
      have isTreatment := treatNode_media_of_some worker.toggle conditions holder.cell.source source
        hasBlock settled (nodesOf children) isOwn
      rw [← List.cons_append, List.mapM_append]
      refine Yields.bind (Yields.inFirst holds fun holdsBelow =>
        ofInner (heightIn (nodesOf children)) here isInner rfl rfl (Nat.le_refl _) holdsBelow) ?_
      rintro value stage' made _ holds' ⟨children'', rfl, treats⟩
      have holdsRest := (holds'.perm (Entry.part_append_perm holder front back [_] rest')).left
      refine Yields.bind ((ofRest later holdsRest).onRight [_] holds') ?_
      rintro others stage'' made' _ holds'' ⟨rest'', rfl, treats'⟩
      refine Yields.pure holds'' ⟨?_, ?_, ?_, ?_⟩
      · simp [treats.ids, treats'.ids]
      · rw [nodesOf_append, treats'.nodes, nodesOf_cons, nodesOf_cons, treatNodes_cons,
          Treatment.nodes_append, Tagged.node, Tagged.node, isTreatment, treats.nodes]
        rfl
      · rw [List.append_nil, List.map_append, nodesOf_append, treats.containers, treats'.containers,
          nodesOf_cons, treatNodes_cons, Treatment.containers_append, Tagged.node, isTreatment]
        rfl
      · rw [List.append_nil]
        exact List.forall_mem_append.mpr ⟨treats.blocks, treats'.blocks⟩

/-- Treating groups does what the treatment of the nodes says. -/
theorem treatsTo (worker : Worker) {levels : Nat} (atMost : levels ≤ worker.levels) :
    TreatsTo worker levels := by
  induction levels using Nat.strong_induction_on with
  | _ levels ofLower =>
      intro stage holder front back row row' conditions groups collects isContainer noCursors within
        holds
      have ofInner : ∀ fewer < levels, TreatsTo worker fewer := fun fewer isFewer =>
        ofLower fewer isFewer (isFewer.le.trans atMost)
      rw [List.mapM_cons]
      refine Yields.bind (yields_treatGroup collects isContainer noCursors (within.trans atMost)
        holds) ?_
      rintro ids stage' made turned holds' ⟨rfl, areBlocks, isHalf, isContainer⟩
      refine Yields.bind (yields_nested ofInner isHalf within holds') ?_
      rintro value stage'' made' turned' holds'' treats
      refine Yields.pure holds'' ⟨?_, treats.nodes, ?_, ?_⟩
      · simp [treats.ids]
      · rw [List.append_nil, List.map_append, nodesOf_append, isContainer, treats.containers,
          Treatment.allContainers_eq]
        rfl
      · rw [List.append_nil]
        exact List.forall_mem_append.mpr ⟨areBlocks, treats.blocks⟩

end Step

end ContainerPreview
