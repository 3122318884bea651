import ContainerPreview.Proofs.Forest.Insertion
import ContainerPreview.Proofs.Forest.Tree

/-!
# Copies in a forest

Copying a node makes new nodes and leaves those that are there alone.  The new nodes are the
nodes of one tree, which has no parent and is the copy of the tree at the node.

The copy is made from below: the children of a block are copied first, each as a tree of its own,
and then put into a new block, which gives its file to those of them that have none.
-/

namespace ContainerPreview

theorem copyInto_eq (file : Option String) (nodes : List Node) :
    copyInto file nodes = (nodes.map Node.copy).map (Node.inherit file) := by
  induction nodes with
  | nil => rfl
  | cons node nodes inductionHypothesis =>
      rw [copyInto, inductionHypothesis, List.map_cons, List.map_cons]

/-- The comment is put into the rule before the rule is put into the sheet, so it gets no file. -/
example : (Node.block (some "a.css") .sheet false
      [.block none (.rule "a") false [.leaf none (.comment "b")]]).copy =
    .block (some "a.css") .sheet false
      [.block (some "a.css") (.rule "a") false [.leaf none (.comment "b")]] := by
  rfl

/-- Marks are not copied. -/
theorem copyInto_clearMarksIn (file : Option String) (nodes : List Node) :
    copyInto file (clearMarksIn nodes) = copyInto file nodes := by
  induction nodes using forest_induction generalizing file with
  | nil => rfl
  | leaf source content rest ofRest => exact congrArg (List.cons _) (ofRest file)
  | block source head settled children rest ofChildren ofRest =>
      rw [clearMarksIn, copyInto, ofRest, Node.clearMarks, Node.copy, ofChildren, copyInto, Node.copy]

theorem Node.copy_clearMarks (node : Node) : node.clearMarks.copy = node.copy := by
  cases node with
  | leaf => rfl
  | block source head settled children =>
      rw [Node.clearMarks, Node.copy, copyInto_clearMarksIn, Node.copy]

/-- No walk goes over the children of a node, and nothing of its class is covered. -/
structure Cell.IsBare (cell : Cell) : Prop where
  cursors : cell.cursors = []
  covers : cell.covers = []

namespace Forest

variable {forest forest' middle : Forest} {id : NodeId} {ids copies copies' : List NodeId}
  {tree : Node} {trees trees' : List Node} {source : Option String}

theorem isBare_of_size_le (unused : forest.size ≤ id) : (forest.cell id).IsBare := by
  have isDefault : forest.cell id = {} := by
    simp only [size] at unused
    simp [cell, unused]
  rw [isDefault]
  exact ⟨rfl, rfl⟩

/-- A forest has got new nodes, which are the nodes of trees without parents. -/
structure Grown (forest forest' : Forest) (copies : List NodeId) (trees : List Node) : Prop where
  linked : WellLinked forest'
  grows : forest.size ≤ forest'.size
  old : ∀ id < forest.size, forest'.cell id = forest.cell id
  isNew : ∀ copy ∈ copies, forest.size ≤ copy ∧ copy < forest'.size
  nodup : copies.Nodup
  detached : ∀ copy ∈ copies, forest'.parent? copy = none
  has : forest'.HasTrees copies trees
  covers : ∀ id, forest.size ≤ id → id < forest'.size →
    ∃ copy ∈ copies, Relation.ReflTransGen forest'.IsParent copy id
  bare : ∀ id, forest.size ≤ id → (forest'.cell id).IsBare

/-- Trees among the nodes that are there stay when the forest grows. -/
theorem HasTrees.grow (linked : WellLinked forest)
    (old : ∀ id < forest.size, forest'.cell id = forest.cell id)
    (inUse : ∀ id ∈ ids, id < forest.size) (has : forest.HasTrees ids trees) :
    forest'.HasTrees ids trees := by
  have down : ∀ id < forest.size, ∀ child ∈ forest.children id, child < forest.size :=
    fun id _ child member => linked.sound.inUse id child member
  exact has.of_same down (fun id inUse => .of_cell (old id inUse)) inUse

theorem hasTrees_append (first : forest.HasTrees copies trees)
    (second : forest.HasTrees copies' trees') :
    forest.HasTrees (copies ++ copies') (trees ++ trees') := by
  induction trees generalizing copies with
  | nil =>
      cases copies with
      | nil => exact second
      | cons => exact first.elim
  | cons tree trees inductionHypothesis =>
      obtain ⟨id, others, rfl, hasTree, hasRest⟩ := hasTrees_cons_iff.mp first
      exact ⟨hasTree, inductionHypothesis hasRest⟩

namespace Grown

theorem refl (linked : WellLinked forest) : Grown forest forest [] [] where
  linked := linked
  grows := Nat.le_refl _
  old _ _ := rfl
  isNew := List.forall_mem_nil _
  nodup := List.nodup_nil
  detached := List.forall_mem_nil _
  has := trivial
  covers _ isNew inUse := absurd inUse (Nat.not_lt.mpr isNew)
  bare _ isNew := isBare_of_size_le isNew

/-- The ways up among the nodes that are there stay. -/
theorem reflTransGen (grown : Grown forest forest' copies trees) {ancestor : NodeId}
    (above : Relation.ReflTransGen forest.IsParent ancestor id) :
    Relation.ReflTransGen forest'.IsParent ancestor id := by
  refine Relation.ReflTransGen.mono (fun parent child isParent => ?_) ancestor id above
  exact (congrArg Cell.parent (grown.old child (inUse_of_isParent isParent))).trans isParent

/-- Growing twice. -/
theorem append (first : Grown forest middle copies trees)
    (second : Grown middle forest' copies' trees') :
    Grown forest forest' (copies ++ copies') (trees ++ trees') where
  linked := second.linked
  grows := Nat.le_trans first.grows second.grows
  old id inUse := (second.old id (Nat.lt_of_lt_of_le inUse first.grows)).trans (first.old id inUse)
  isNew := List.forall_mem_append.mpr
    ⟨fun copy member => ⟨(first.isNew copy member).1,
        Nat.lt_of_lt_of_le (first.isNew copy member).2 second.grows⟩,
      fun copy member => ⟨Nat.le_trans first.grows (second.isNew copy member).1,
        (second.isNew copy member).2⟩⟩
  nodup := by
    refine List.nodup_append.mpr ⟨first.nodup, second.nodup, fun copy member copy' member' => ?_⟩
    have isOlder := Nat.lt_of_lt_of_le (first.isNew copy member).2 (second.isNew copy' member').1
    exact Nat.ne_of_lt isOlder
  detached := by
    refine List.forall_mem_append.mpr ⟨fun copy member => ?_, second.detached⟩
    have same := second.old copy (first.isNew copy member).2
    exact (congrArg Cell.parent same).trans (first.detached copy member)
  has := by
    have inUse : ∀ copy ∈ copies, copy < middle.size := fun copy member =>
      (first.isNew copy member).2
    exact hasTrees_append (first.has.grow first.linked second.old inUse) second.has
  covers id isNew inUse := by
    rcases Nat.lt_or_ge id middle.size with isFirst | isSecond
    · obtain ⟨copy, member, above⟩ := first.covers id isNew isFirst
      exact ⟨copy, List.mem_append_left _ member, second.reflTransGen above⟩
    · obtain ⟨copy, member, above⟩ := second.covers id isSecond inUse
      exact ⟨copy, List.mem_append_right _ member, above⟩
  bare id isNew := by
    rcases Nat.lt_or_ge id middle.size with isFirst | isSecond
    · rw [second.old id isFirst]
      exact first.bare id isNew
    · exact second.bare id isSecond

/-- One new leaf. -/
theorem leaf (linked : WellLinked forest) (source : Option String) (content : Leaf) :
    Grown forest (forest.add { kind := .leaf content, source }) [forest.size]
      [.leaf source content] := by
  have isCell := cell_add_self forest { kind := .leaf content, source }
  refine ⟨linked.add (.leaf content) source, ?_, fun id inUse => ?_, ?_, List.nodup_singleton _, ?_,
    ?_, fun id isNew inUse => ?_, fun id isNew => ?_⟩
  · rw [size_add]
    exact Nat.le_succ _
  · exact cell_add_of_lt inUse _
  · rw [List.forall_mem_singleton, size_add]
    exact ⟨Nat.le_refl _, Nat.lt_succ_self _⟩
  · rw [List.forall_mem_singleton, parent?, isCell]
  · rw [hasTrees_singleton_iff]
    exact ⟨congrArg Cell.kind isCell, congrArg Cell.source isCell, congrArg Cell.children isCell⟩
  · rw [size_add] at inUse
    obtain rfl : id = forest.size := Nat.le_antisymm (Nat.le_of_lt_succ inUse) isNew
    exact ⟨forest.size, List.mem_singleton_self _, .refl⟩
  · rcases Nat.eq_or_lt_of_le isNew with rfl | isUnused
    · rw [isCell]
      exact ⟨rfl, rfl⟩
    · refine isBare_of_size_le ?_
      rw [size_add]
      exact isUnused

end Grown

/-! ## One new block -/

/-- Trees whose tops are put into a block.  What is below them does not change. -/
theorem HasTrees.inherit (linked : WellLinked forest) {file : Option String}
    (kind : ∀ id ∈ ids, (forest'.cell id).kind = (forest.cell id).kind)
    (source : ∀ id ∈ ids, (forest'.cell id).source = (forest.cell id).source.or file)
    (children : ∀ id ∈ ids, forest'.children id = forest.children id)
    (below : ∀ parent id, forest.IsParent parent id → forest'.cell id = forest.cell id)
    (has : forest.HasTrees ids trees) : forest'.HasTrees ids (trees.map (Node.inherit file)) := by
  induction trees generalizing ids with
  | nil =>
      cases ids with
      | nil => trivial
      | cons => exact has
  | cons tree trees inductionHypothesis =>
      obtain ⟨id, others, rfl, hasTree, hasRest⟩ := hasTrees_cons_iff.mp has
      obtain ⟨kindHere, kindLater⟩ := List.forall_mem_cons.mp kind
      obtain ⟨sourceHere, sourceLater⟩ := List.forall_mem_cons.mp source
      obtain ⟨childrenHere, childrenLater⟩ := List.forall_mem_cons.mp children
      refine ⟨?_, inductionHypothesis kindLater sourceLater childrenLater hasRest⟩
      cases tree with
      | leaf own content =>
          obtain ⟨isKind, rfl, noChildren⟩ := hasTree
          exact ⟨kindHere.trans isKind, sourceHere, childrenHere.trans noChildren⟩
      | block own head settled nodes =>
          obtain ⟨isKind, rfl, isUnmarked, hasNodes⟩ := hasTree
          have isBelow : ∀ child ∈ forest.children id, ∃ parent, forest.IsParent parent child :=
            fun child member => ⟨id, linked.isParent_iff.mpr member⟩
          refine ⟨kindHere.trans isKind, sourceHere, isUnmarked, ?_⟩
          rw [childrenHere]
          refine hasNodes.of_same (fun other _ child member => ?_) (fun other isBelow => ?_) isBelow
          · exact ⟨other, linked.isParent_iff.mpr member⟩
          · obtain ⟨parent, isParent⟩ := isBelow
            exact .of_cell (below parent other isParent)

theorem apply_createWith (kind : Kind) (source : Option String) (nodes : List NodeId)
    (forest : Forest) :
    (createWith kind source nodes).apply forest =
      match (append forest.size nodes).apply (forest.add { kind, source }) with
      | (.ok (), changed) => (.ok forest.size, changed)
      | (.error error, changed) => (.error error, changed) := by
  have created : (create kind source).apply forest =
      (.ok forest.size, forest.add { kind, source }) := rfl
  rw [createWith, Edit.apply_bind, created]
  dsimp only
  rw [Edit.apply_bind]
  rcases (append forest.size nodes).apply (forest.add { kind, source }) with ⟨_ | _, changed⟩
  · rfl
  · rfl

/-- A forest has got a new block, which has taken nodes without parents and has no parent. -/
structure Enclosed (forest forest' : Forest) (file : Option String) (head : Head)
    (nodes : List NodeId) : Prop where
  linked : WellLinked forest'
  size : forest'.size = forest.size + 1
  block : forest'.cell forest.size =
    { kind := .block head, source := file, children := nodes }
  taken : ∀ id ∈ nodes, forest'.cell id =
    { forest.cell id with
      parent := some forest.size
      source := (forest.cell id).source.or file }
  old : ∀ id < forest.size, id ∉ nodes → forest'.cell id = forest.cell id

/-- Nothing stands above a new node. -/
theorem mayTake_new (inUse : ∀ id ∈ ids, id < forest.size) (nodup : ids.Nodup) (kind : Kind)
    (source : Option String) : MayTake (forest.add { kind, source }) forest.size ids where
  nodup := nodup
  isFree id member := by
    refine ⟨Nat.ne_of_lt (inUse id member), fun isAncestor => ?_⟩
    obtain ⟨parent, isParent, -⟩ := exists_parent_of_isAncestor isAncestor
    rw [IsParent, parent?, cell_add_self] at isParent
    cases isParent

/-- A new block takes nodes that have no parent. -/
theorem exists_enclosed (linked : WellLinked forest) (source : Option String) (head : Head)
    (inUse : ∀ id ∈ ids, id < forest.size) (nodup : ids.Nodup)
    (detached : ∀ id ∈ ids, forest.parent? id = none) :
    ∃ forest', (createWith (.block head) source ids).apply forest = (.ok forest.size, forest') ∧
      Enclosed forest forest' source head ids := by
  generalize isAdded : forest.add { kind := .block head, source } = added
  have linked' : WellLinked added := isAdded ▸ linked.add (.block head) source
  have isSize : added.size = forest.size + 1 := isAdded ▸ size_add ..
  have may : MayTake added forest.size ids :=
    isAdded ▸ mayTake_new inUse nodup (.block head) source
  have newCell : added.cell forest.size = { kind := .block head, source } :=
    isAdded ▸ cell_add_self forest _
  have oldCell : ∀ id < forest.size, added.cell id = forest.cell id :=
    fun id inUse => isAdded ▸ cell_add_of_lt inUse _
  have isContainer : (added.cell forest.size).kind.isContainer := by rw [newCell, Kind.isContainer]
  have inUse' : ∀ node ∈ forest.size :: ids, node < added.size :=
    isSize ▸ List.forall_mem_cons.mpr
      ⟨Nat.lt_succ_self _, fun id member => Nat.lt_succ_of_lt (inUse id member)⟩
  have detached' : ∀ id ∈ ids, added.parent? id = none := fun id member =>
    (congrArg Cell.parent (oldCell id (inUse id member))).trans (detached id member)
  obtain ⟨forest', appended, inserted⟩ := (places_append forest.size ids).exists_inserted linked'
    isContainer inUse' detached' may 0 fun taken same => by
      rw [same, Forest.children, newCell]
      rfl
  have made : (createWith (.block head) source ids).apply forest = (.ok forest.size, forest') := by
    rw [apply_createWith, isAdded, appended]
  refine ⟨forest', made, inserted.linked, inserted.size.trans isSize, ?_, fun id member => ?_,
    fun id older notTaken => ?_⟩
  · have isBlock := inserted.holder
    rw [Forest.children, newCell] at isBlock
    simpa using isBlock
  · rw [inserted.inserted id member, oldCell id (inUse id member), newCell]
  · exact (inserted.others id (Nat.ne_of_lt older) notTaken).trans (oldCell id older)

/-- One new block that takes the trees. -/
theorem Grown.block {head : Head} (grown : Grown forest middle copies trees)
    (enclosed : Enclosed middle forest' source head copies) :
    Grown forest forest' [middle.size]
      [.block source head false (trees.map (Node.inherit source))] := by
  have notCopy : ∀ {parent id}, middle.IsParent parent id → id ∉ copies :=
    fun isParent isCopy => nomatch (grown.detached _ isCopy).symm.trans isParent
  have below : ∀ parent id, middle.IsParent parent id → forest'.cell id = middle.cell id :=
    fun parent id isParent => enclosed.old id (inUse_of_isParent isParent) (notCopy isParent)
  refine ⟨enclosed.linked, ?_, fun id inUse => ?_, ?_, List.nodup_singleton _, ?_, ?_,
    fun id isNew inUse => ⟨middle.size, List.mem_singleton_self _, ?_⟩, fun id isNew => ?_⟩
  · exact enclosed.size ▸ Nat.le_succ_of_le grown.grows
  · have isOld : id ∉ copies := fun isCopy => Nat.not_lt.mpr (grown.isNew id isCopy).1 inUse
    exact (enclosed.old id (Nat.lt_of_lt_of_le inUse grown.grows) isOld).trans (grown.old id inUse)
  · exact List.forall_mem_singleton.mpr ⟨grown.grows, enclosed.size ▸ Nat.lt_succ_self _⟩
  · exact List.forall_mem_singleton.mpr (congrArg Cell.parent enclosed.block)
  · refine hasTrees_singleton_iff.mpr ⟨congrArg Cell.kind enclosed.block,
      congrArg Cell.source enclosed.block, rfl, ?_⟩
    have areChildren : forest'.children middle.size = copies :=
      congrArg Cell.children enclosed.block
    rw [areChildren]
    exact grown.has.inherit grown.linked
      (fun id member => by rw [enclosed.taken id member])
      (fun id member => by rw [enclosed.taken id member])
      (fun id member => by rw [Forest.children, enclosed.taken id member, Forest.children]) below
  · rcases Nat.lt_or_ge id middle.size with isOlder | isLast
    · obtain ⟨copy, isCopy, above⟩ := grown.covers id isNew isOlder
      refine .head (congrArg Cell.parent (enclosed.taken copy isCopy))
        (Relation.ReflTransGen.mono (fun parent child isParent => ?_) copy id above)
      exact (congrArg Cell.parent (below parent child isParent)).trans isParent
    · rw [enclosed.size] at inUse
      obtain rfl : id = middle.size := Nat.le_antisymm (Nat.le_of_lt_succ inUse) isLast
      exact .refl
  · by_cases isTaken : id ∈ copies
    · obtain ⟨cursors, covers⟩ := grown.bare id isNew
      rw [enclosed.taken id isTaken]
      exact ⟨cursors, covers⟩
    · rcases Nat.lt_trichotomy id middle.size with isOlder | rfl | isUnused
      · rw [enclosed.old id isOlder isTaken]
        exact grown.bare id isNew
      · rw [enclosed.block]
        exact ⟨rfl, rfl⟩
      · exact isBare_of_size_le (enclosed.size ▸ isUnused)

/-! ## Copies of trees -/

/-- What an edit makes of a node with a tree: new nodes with the copy of the tree. -/
def CopiesTree (edit : NodeId → Edit NodeId) (tree : Node) : Prop :=
  ∀ forest id, WellLinked forest → id < forest.size → HasTree forest id tree →
    ∃ copy forest', (edit id).apply forest = (.ok copy, forest') ∧
      Grown forest forest' [copy] [tree.copy]

/-- Nodes are copied one after another, each in the forest that the copies before it have made. -/
theorem exists_grown_mapM {edit : NodeId → Edit NodeId}
    (copies : ∀ tree ∈ trees, CopiesTree edit tree) (linked : WellLinked forest)
    (inUse : ∀ id ∈ ids, id < forest.size) (has : forest.HasTrees ids trees) :
    ∃ copies forest', (ids.mapM edit).apply forest = (.ok copies, forest') ∧
      Grown forest forest' copies (trees.map Node.copy) := by
  induction trees generalizing ids forest with
  | nil =>
      cases ids with
      | nil => exact ⟨[], forest, rfl, .refl linked⟩
      | cons => exact has.elim
  | cons tree trees inductionHypothesis =>
      obtain ⟨id, others, rfl, hasTree, hasRest⟩ := hasTrees_cons_iff.mp has
      obtain ⟨here, later⟩ := List.forall_mem_cons.mp inUse
      obtain ⟨copiesTree, copiesRest⟩ := List.forall_mem_cons.mp copies
      obtain ⟨copy, middle, isCopy, grown⟩ := copiesTree forest id linked here hasTree
      obtain ⟨rest, forest', areCopies, grownRest⟩ := inductionHypothesis copiesRest grown.linked
        (fun other member => Nat.lt_of_lt_of_le (later other member) grown.grows)
        (hasRest.grow linked grown.old later)
      refine ⟨copy :: rest, forest', ?_, grown.append grownRest⟩
      rw [List.mapM_cons, Edit.apply_bind, isCopy]
      dsimp only
      rw [Edit.apply_bind, areCopies]
      rfl

theorem copiesTree_copyTo (levels : Nat) (tree : Node) (enough : tree.height < levels) :
    CopiesTree (copyTo levels) tree := by
  induction levels generalizing tree with
  | zero => omega
  | succ levels inductionHypothesis =>
      intro forest id linked _ has
      cases tree with
      | leaf source content =>
          obtain ⟨isKind, rfl, -⟩ := has
          refine ⟨forest.size, _, ?_, .leaf linked (forest.cell id).source content⟩
          rw [copyTo, Edit.apply_bind, Edit.apply_get]
          dsimp only
          rw [isKind]
          rfl
      | block source head settled nodes =>
          obtain ⟨isKind, rfl, -, hasChildren⟩ := has
          rw [height_block] at enough
          have copiesChild : ∀ child ∈ nodes, CopiesTree (copyTo levels) child :=
            fun child member => inductionHypothesis child
              (Nat.lt_of_le_of_lt (height_le_heightIn member) (Nat.lt_of_succ_lt_succ enough))
          obtain ⟨copies, middle, areCopies, grown⟩ := exists_grown_mapM copiesChild linked
            (linked.sound.inUse id) hasChildren
          obtain ⟨forest', made, enclosed⟩ := exists_enclosed grown.linked (forest.cell id).source
            head (fun copy member => (grown.isNew copy member).2) grown.nodup grown.detached
          refine ⟨middle.size, forest', ?_, ?_⟩
          · rw [copyTo, Edit.apply_bind, Edit.apply_get]
            dsimp only
            rw [isKind]
            dsimp only
            rw [Edit.apply_bind]
            rw [children] at areCopies
            rw [areCopies]
            exact made
          · rw [Node.copy, copyInto_eq]
            exact grown.block enclosed

end Forest

end ContainerPreview
