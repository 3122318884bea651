import ContainerPreview.Forest.Show
import ContainerPreview.Proofs.Forest.Below
import ContainerPreview.Proofs.Sheet.Height

/-!
# Trees in a forest

A forest has a tree at a node if the node and all nodes below it are what the tree says: of the
same kind, from the same file, and with the same children in the same order.  In a linked forest
there is a tree at every node that has nothing generic in it, and a tree has no more levels than
the forest has nodes.

What a node is written as is the text of its tree.
-/

namespace ContainerPreview

/-- A kind without any content of its own. -/
def Kind.isGeneric : Kind → Bool
  | .generic | .container => true
  | .leaf _ | .block _ => false

namespace Forest

variable {forest forest' : Forest} {id : NodeId} {ids passed : List NodeId} {tree : Node}
  {trees : List Node}

mutual
/-- The forest has a tree at a node. -/
def HasTree (forest : Forest) (id : NodeId) : Node → Prop
  | .leaf source content =>
      (forest.cell id).kind = .leaf content ∧ (forest.cell id).source = source ∧
        forest.children id = []
  | .block source head settled children =>
      (forest.cell id).kind = .block head ∧ (forest.cell id).source = source ∧ settled = false ∧
        HasTrees forest (forest.children id) children
/-- The forest has trees at nodes, one at each. -/
def HasTrees (forest : Forest) : List NodeId → List Node → Prop
  | [], [] => True
  | id :: ids, tree :: trees => HasTree forest id tree ∧ HasTrees forest ids trees
  | _, _ => False
end

theorem hasTrees_cons_iff : forest.HasTrees ids (tree :: trees) ↔
    ∃ id rest, ids = id :: rest ∧ forest.HasTree id tree ∧ forest.HasTrees rest trees := by
  cases ids with
  | nil => simp [HasTrees]
  | cons id ids => simp [HasTrees]

theorem hasTrees_singleton_iff : forest.HasTrees [id] [tree] ↔ forest.HasTree id tree := by
  simp [HasTrees]

/-! ## What a tree depends on -/

/-- A node is the same to a tree: it is of the same kind, from the same file, and has the same
children. -/
structure SameToTrees (forest forest' : Forest) (id : NodeId) : Prop where
  kind : (forest'.cell id).kind = (forest.cell id).kind
  source : (forest'.cell id).source = (forest.cell id).source
  children : forest'.children id = forest.children id

theorem SameToTrees.of_cell (same : forest'.cell id = forest.cell id) :
    SameToTrees forest forest' id :=
  ⟨congrArg Cell.kind same, congrArg Cell.source same, congrArg Cell.children same⟩

/-- Trees stay as they are if no node of a set has changed to them that goes down with its
nodes. -/
theorem HasTrees.of_same {inside : NodeId → Prop}
    (down : ∀ id, inside id → ∀ child ∈ forest.children id, inside child)
    (same : ∀ id, inside id → SameToTrees forest forest' id)
    (within : ∀ id ∈ ids, inside id) (has : forest.HasTrees ids trees) :
    forest'.HasTrees ids trees := by
  induction trees using forest_induction generalizing ids with
  | nil =>
      cases ids with
      | nil => trivial
      | cons => exact has
  | leaf source content rest ofRest =>
      obtain ⟨id, others, rfl, ⟨isKind, isSource, noChildren⟩, hasRest⟩ := hasTrees_cons_iff.mp has
      obtain ⟨here, later⟩ := List.forall_mem_cons.mp within
      have sameHere := same id here
      exact ⟨⟨sameHere.kind.trans isKind, sameHere.source.trans isSource,
        sameHere.children.trans noChildren⟩, ofRest later hasRest⟩
  | block source head settled children rest ofChildren ofRest =>
      obtain ⟨id, others, rfl, ⟨isKind, isSource, isUnmarked, hasChildren⟩, hasRest⟩ :=
        hasTrees_cons_iff.mp has
      obtain ⟨here, later⟩ := List.forall_mem_cons.mp within
      have sameHere := same id here
      refine ⟨⟨sameHere.kind.trans isKind, sameHere.source.trans isSource, isUnmarked, ?_⟩,
        ofRest later hasRest⟩
      rw [sameHere.children]
      exact ofChildren (down id here) hasChildren

/-! ## The tree at a node -/

theorem exists_hasTrees {levels : Nat}
    (has : ∀ id ∈ ids, ∃ tree, forest.HasTree id tree ∧ tree.height ≤ levels) :
    ∃ trees, forest.HasTrees ids trees ∧ heightIn trees ≤ levels := by
  induction ids with
  | nil => exact ⟨[], trivial, Nat.zero_le _⟩
  | cons id ids inductionHypothesis =>
      obtain ⟨here, later⟩ := List.forall_mem_cons.mp has
      obtain ⟨tree, hasTree, atMost⟩ := here
      obtain ⟨trees, hasTrees, areAtMost⟩ := inductionHypothesis later
      exact ⟨tree :: trees, ⟨hasTree, hasTrees⟩, Nat.max_le.mpr ⟨atMost, areAtMost⟩⟩

/-- The tree at a node and the way to it have no more levels together than the forest has
nodes. -/
theorem exists_hasTree_of_way (linked : WellLinked forest) (levels : Nat)
    (way : IsWayTo forest passed id) (inUse : id < forest.size)
    (enough : forest.size ≤ levels + passed.length)
    (specific : ∀ node, Relation.ReflTransGen forest.IsParent id node →
      (forest.cell node).kind.isGeneric = false) :
    ∃ tree, forest.HasTree id tree ∧ tree.height ≤ forest.size - passed.length := by
  have few := linked.length_children_add_way_lt way inUse
  induction levels generalizing id passed with
  | zero => omega
  | succ levels inductionHypothesis =>
      have isSpecific := specific id .refl
      cases isKind : (forest.cell id).kind with
      | generic => simp [isKind, Kind.isGeneric] at isSpecific
      | container => simp [isKind, Kind.isGeneric] at isSpecific
      | leaf content =>
          have noChildren : forest.children id = [] :=
            linked.children_eq_nil_of_leaf (by rw [isKind, Kind.isContainer])
          exact ⟨.leaf (forest.cell id).source content, ⟨isKind, rfl, noChildren⟩, Nat.zero_le _⟩
      | block head =>
          have ofChild : ∀ child ∈ forest.children id, ∃ tree, forest.HasTree child tree ∧
              tree.height ≤ forest.size - passed.length - 1 := by
            intro child member
            have way' := linked.way_down way member
            have inUse' := linked.sound.inUse id child member
            have few' := linked.length_children_add_way_lt way' inUse'
            rw [Nat.sub_sub]
            refine inductionHypothesis way' inUse' (by simp only [List.length_cons]; omega)
              (fun node orBelow => specific node ?_) few'
            exact .head (linked.isParent_iff.mpr member) orBelow
          obtain ⟨trees, hasTrees, areAtMost⟩ := exists_hasTrees ofChild
          refine ⟨.block (forest.cell id).source head false trees, ⟨isKind, rfl, rfl, hasTrees⟩, ?_⟩
          rw [height_block]
          omega

theorem exists_hasTree (linked : WellLinked forest) (inUse : id < forest.size)
    (specific : ∀ node, Relation.ReflTransGen forest.IsParent id node →
      (forest.cell node).kind.isGeneric = false) :
    ∃ tree, forest.HasTree id tree ∧ tree.height ≤ forest.size :=
  exists_hasTree_of_way linked forest.size (.nil forest id) inUse (Nat.le_add_right _ _) specific

/-! ## Texts -/

theorem exists_mapM_treeTo? {levels : Nat}
    (written : ∀ id ∈ ids, ∀ tree ∈ trees, forest.HasTree id tree →
      ∃ written, forest.treeTo? levels id = some written ∧
        ∀ depth, written.cssAt depth = tree.cssAt depth)
    (has : forest.HasTrees ids trees) :
    ∃ written, ids.mapM (treeTo? forest levels) = some written ∧
      ∀ depth, linesAt depth written = linesAt depth trees := by
  induction trees generalizing ids with
  | nil =>
      cases ids with
      | nil => exact ⟨[], rfl, fun _ => rfl⟩
      | cons => exact has.elim
  | cons tree trees inductionHypothesis =>
      obtain ⟨id, others, rfl, hasTree, hasRest⟩ := hasTrees_cons_iff.mp has
      obtain ⟨first, isFirst, sameText⟩ :=
        written id List.mem_cons_self tree List.mem_cons_self hasTree
      obtain ⟨rest, isRest, sameTexts⟩ := inductionHypothesis
        (fun other isOther next isNext => written other (List.mem_cons_of_mem _ isOther) next
          (List.mem_cons_of_mem _ isNext)) hasRest
      refine ⟨first :: rest, by simp [List.mapM_cons, isFirst, isRest], fun depth => ?_⟩
      rw [linesAt, linesAt, sameText, sameTexts]

theorem treeTo?_block {head : Head} (isKind : (forest.cell id).kind = .block head)
    (hasText : ∀ name params, head ≠ .atRule name params false) (levels : Nat) :
    forest.treeTo? (levels + 1) id = ((forest.children id).mapM (treeTo? forest levels)).map
      (.block (forest.cell id).source head false) := by
  rw [treeTo?, isKind]
  cases head with
  | sheet => rfl
  | rule selector => rfl
  | atRule name params hasBlock =>
      cases hasBlock with
      | true => rfl
      | false => exact absurd rfl (hasText name params)

theorem cssAt_block_congr {children children' : List Node}
    (sameTexts : ∀ depth, linesAt depth children = linesAt depth children')
    (source : Option String) (head : Head) (settled settled' : Bool) (depth : Nat) :
    (Node.block source head settled children).cssAt depth =
      (Node.block source head settled' children').cssAt depth := by
  cases head <;> simp only [Node.cssAt, sameTexts]

/-- The tree that is written need not be the tree at the node, since it has nothing below at-rules
without a block, but it has the same text. -/
theorem HasTree.exists_treeTo? {levels : Nat} (has : forest.HasTree id tree)
    (enough : tree.height < levels) :
    ∃ written, forest.treeTo? levels id = some written ∧
      ∀ depth, written.cssAt depth = tree.cssAt depth := by
  induction levels generalizing id tree with
  | zero => omega
  | succ levels inductionHypothesis =>
      cases tree with
      | leaf source content =>
          obtain ⟨isKind, isSource, -⟩ := has
          exact ⟨.leaf source content, by simp [treeTo?, isKind, isSource], fun _ => rfl⟩
      | block source head settled children =>
          obtain ⟨isKind, isSource, -, hasChildren⟩ := has
          by_cases isShort : ∃ name params, head = .atRule name params false
          · obtain ⟨name, params, rfl⟩ := isShort
            refine ⟨.block source (.atRule name params false) false [], ?_, fun depth => ?_⟩
            · simp [treeTo?, isKind, isSource]
            · simp [Node.cssAt]
          · rw [height_block] at enough
            have lower : ∀ tree ∈ children, tree.height < levels := fun tree member =>
              Nat.lt_of_le_of_lt (height_le_heightIn member) (Nat.lt_of_succ_lt_succ enough)
            obtain ⟨written, isWritten, sameTexts⟩ := exists_mapM_treeTo?
              (fun child _ tree member hasTree => inductionHypothesis hasTree (lower tree member))
              hasChildren
            refine ⟨.block source head false written, ?_,
              cssAt_block_congr sameTexts source head false settled⟩
            rw [treeTo?_block isKind (fun name params isHead => isShort ⟨name, params, isHead⟩),
              isWritten, isSource, Option.map_some]

theorem HasTree.cssAt_eq (has : forest.HasTree id tree) (atMost : tree.height ≤ forest.size)
    (depth : Nat) : forest.cssAt depth id = .ok (tree.cssAt depth) := by
  obtain ⟨written, isWritten, sameText⟩ := has.exists_treeTo? (Nat.lt_succ_of_le atMost)
  rw [cssAt, tree?, isWritten]
  exact congrArg Except.ok (sameText depth)

end Forest

/-! ## Texts of copies -/

theorem Node.cssAt_inherit (file : Option String) (node : Node) (depth : Nat) :
    (node.inherit file).cssAt depth = node.cssAt depth := by
  cases node with
  | leaf => rfl
  | block source head settled children => cases head <;> rfl

theorem linesAt_copyInto (file : Option String) (nodes : List Node) (depth : Nat) :
    linesAt depth (copyInto file nodes) = linesAt depth nodes := by
  induction nodes using forest_induction generalizing file depth with
  | nil => rfl
  | leaf source content rest ofRest =>
      rw [copyInto, linesAt, linesAt, Node.cssAt_inherit, ofRest, Node.copy]
  | block source head settled children rest ofChildren ofRest =>
      rw [copyInto, linesAt, linesAt, Node.cssAt_inherit, ofRest, Node.copy]
      cases head <;> simp only [Node.cssAt, ofChildren]

/-- A copy is written as the original is. -/
theorem Node.cssAt_copy (node : Node) (depth : Nat) : node.copy.cssAt depth = node.cssAt depth := by
  have sameLines := linesAt_copyInto none [node] depth
  rw [copyInto, linesAt, linesAt, Node.cssAt_inherit] at sameLines
  exact (List.cons.inj sameLines).1

end ContainerPreview
