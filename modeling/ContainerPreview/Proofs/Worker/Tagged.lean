import ContainerPreview.Proofs.Forest.Clone
import ContainerPreview.Proofs.Worker.Entries
import Mathlib.Algebra.Order.Group.Multiset
import Mathlib.Tactic.Abel

/-!
# Trees with the numbers of their nodes

A tree whose nodes have numbers determines an entry for each of its nodes, if the parent of its top
is known.  In a forest without cursors every tree of the forest has numbers; a forest that holds the
entries of a tree with numbers has the tree without them.
-/

namespace ContainerPreview

/-- A tree of numbered nodes. -/
inductive Tagged where
  | leaf (id : NodeId) (source : Option String) (content : Leaf)
  | block (id : NodeId) (source : Option String) (head : Head) (settled : Bool)
      (children : List Tagged)

/-- Induction on a row of numbered trees: a leaf or a block stands in front of further trees, and a
block has children of its own. -/
theorem tagged_induction {motive : List Tagged → Prop} (nil : motive [])
    (leaf : ∀ id source content rest, motive rest → motive (.leaf id source content :: rest))
    (block : ∀ id source head settled children rest, motive children → motive rest →
      motive (.block id source head settled children :: rest)) :
    ∀ row, motive row := fun row =>
  Tagged.rec_1 (motive_1 := fun tree => ∀ rest, motive rest → motive (tree :: rest))
    (fun id source content rest ofRest => leaf id source content rest ofRest)
    (fun id source head settled children ofChildren rest ofRest =>
      block id source head settled children rest ofChildren ofRest)
    nil (fun _ _ ofTree ofRest => ofTree _ ofRest) row

namespace Tagged

/-- The number of the top. -/
def id : Tagged → NodeId
  | .leaf id _ _ => id
  | .block id _ _ _ _ => id

mutual
/-- The tree without its numbers. -/
def node : Tagged → Node
  | .leaf _ source content => .leaf source content
  | .block _ source head settled children => .block source head settled (nodesOf children)
/-- The trees without their numbers. -/
def nodesOf : List Tagged → List Node
  | [] => []
  | tree :: trees => tree.node :: nodesOf trees
end

/-- The tree as it is put into a block from the given file. -/
def inherit (file : Option String) : Tagged → Tagged
  | .leaf id source content => .leaf id (source.or file) content
  | .block id source head settled children => .block id (source.or file) head settled children

mutual
/-- The entries of a tree, given the parent of its top. -/
def entries (parent : Option NodeId) : Tagged → List Entry
  | .leaf id source content => [⟨id, { kind := .leaf content, source, parent }, false⟩]
  | .block id source head settled children =>
      ⟨id, { kind := .block head, source, parent, children := children.map Tagged.id }, settled⟩ ::
        entriesIn (some id) children
/-- The entries of trees with the same parent. -/
def entriesIn (parent : Option NodeId) : List Tagged → List Entry
  | [] => []
  | tree :: trees => tree.entries parent ++ entriesIn parent trees
end

variable {parent parent' : Option NodeId} {tree : Tagged} {left right row : List Tagged}

@[simp]
theorem id_leaf (id : NodeId) (source : Option String) (content : Leaf) :
    (Tagged.leaf id source content).id = id :=
  rfl

@[simp]
theorem id_block (id : NodeId) (source : Option String) (head : Head) (settled : Bool)
    (children : List Tagged) : (Tagged.block id source head settled children).id = id :=
  rfl

@[simp]
theorem nodesOf_nil : nodesOf [] = [] :=
  rfl

@[simp]
theorem nodesOf_cons (tree : Tagged) (trees : List Tagged) :
    nodesOf (tree :: trees) = tree.node :: nodesOf trees :=
  rfl

@[simp]
theorem nodesOf_append (left right : List Tagged) :
    nodesOf (left ++ right) = nodesOf left ++ nodesOf right := by
  induction left with
  | nil => rfl
  | cons tree trees inductionHypothesis => simp [inductionHypothesis]

theorem nodesOf_eq_map (row : List Tagged) : nodesOf row = row.map node := by
  induction row with
  | nil => rfl
  | cons tree trees inductionHypothesis => simp [inductionHypothesis]

@[simp]
theorem id_inherit (file : Option String) (tree : Tagged) : (tree.inherit file).id = tree.id := by
  cases tree <;> rfl

@[simp]
theorem map_id_inherit (file : Option String) (row : List Tagged) :
    (row.map (inherit file)).map Tagged.id = row.map Tagged.id := by
  simp

theorem node_inherit (file : Option String) (tree : Tagged) :
    (tree.inherit file).node = tree.node.inherit file := by
  cases tree <;> rfl

@[simp]
theorem nodesOf_map_inherit (file : Option String) (row : List Tagged) :
    nodesOf (row.map (inherit file)) = (nodesOf row).map (Node.inherit file) := by
  simp [nodesOf_eq_map, Function.comp_def, node_inherit]

@[simp]
theorem entriesIn_nil : entriesIn parent [] = [] :=
  rfl

@[simp]
theorem entriesIn_cons (tree : Tagged) (trees : List Tagged) :
    entriesIn parent (tree :: trees) = tree.entries parent ++ entriesIn parent trees :=
  rfl

@[simp]
theorem entriesIn_append (left right : List Tagged) :
    entriesIn parent (left ++ right) = entriesIn parent left ++ entriesIn parent right := by
  induction left with
  | nil => rfl
  | cons tree trees inductionHypothesis => simp [inductionHypothesis]

/-- The numbers of the nodes of a tree do not depend on its parent. -/
theorem map_id_entries (tree : Tagged) :
    (tree.entries parent).map Entry.id = (tree.entries parent').map Entry.id := by
  cases tree <;> rfl

theorem map_id_entriesIn (row : List Tagged) :
    (entriesIn parent row).map Entry.id = (entriesIn parent' row).map Entry.id := by
  induction row with
  | nil => rfl
  | cons tree trees inductionHypothesis =>
      simp only [entriesIn_cons, List.map_append, inductionHypothesis]
      rw [map_id_entries]

/-- The numbers of the nodes of a row of trees. -/
def idsOf (row : List Tagged) : List NodeId :=
  (entriesIn none row).map Entry.id

theorem map_id_eq_idsOf (parent : Option NodeId) (row : List Tagged) :
    (entriesIn parent row).map Entry.id = idsOf row :=
  map_id_entriesIn row

@[simp]
theorem idsOf_nil : idsOf [] = [] :=
  rfl

@[simp]
theorem idsOf_append (left right : List Tagged) :
    idsOf (left ++ right) = idsOf left ++ idsOf right := by
  simp [idsOf]

@[simp]
theorem idsOf_leaf (id : NodeId) (source : Option String) (content : Leaf) (row : List Tagged) :
    idsOf (.leaf id source content :: row) = id :: idsOf row :=
  rfl

@[simp]
theorem idsOf_block (id : NodeId) (source : Option String) (head : Head) (settled : Bool)
    (children row : List Tagged) :
    idsOf (.block id source head settled children :: row) =
      id :: (idsOf children ++ idsOf row) := by
  simp [idsOf, entries, @map_id_entriesIn (some id) none children]

theorem id_mem_idsOf (member : tree ∈ row) : tree.id ∈ idsOf row := by
  obtain ⟨left, right, rfl⟩ := List.append_of_mem member
  rw [idsOf_append]
  cases tree <;> simp [Tagged.id]

end Tagged

open Tagged

/-- The entry with the given children. -/
def Entry.withChildren (entry : Entry) (children : List NodeId) : Entry :=
  { entry with cell := { entry.cell with children } }

/-- The entries of a block and of a row of its children, which stands between others. -/
def Entry.part (holder : Entry) (front back : List NodeId) (row : List Tagged) : List Entry :=
  holder.withChildren (front ++ row.map Tagged.id ++ back) :: entriesIn (some holder.id) row

/-- The entry of a block of its own, whose children do not count. -/
def Tagged.holderOf (parent : Option NodeId) (id : NodeId) (source : Option String) (head : Head)
    (settled : Bool) : Entry :=
  ⟨id, { kind := .block head, source, parent }, settled⟩

theorem Tagged.entriesIn_singleton (parent : Option NodeId) (tree : Tagged) :
    entriesIn parent [tree] = tree.entries parent := by
  rw [entriesIn_cons, entriesIn_nil, List.append_nil]

/-- A block and all its children. -/
theorem Tagged.entries_block (parent : Option NodeId) (id : NodeId) (source : Option String)
    (head : Head) (settled : Bool) (children : List Tagged) :
    Tagged.entries parent (.block id source head settled children) =
      (holderOf parent id source head settled).part [] [] children := by
  simp [Tagged.entries, Entry.part, Entry.withChildren, holderOf]

/-- Rearranges entries, for which their order does not count. -/
theorem Stage.perm_of_coe {left right : List Entry}
    (same : (left : Multiset Entry) = (right : Multiset Entry)) : left.Perm right :=
  Multiset.coe_eq_coe.mp same

namespace Stage

variable {stage : Stage} {parent : Option NodeId} {row : List Tagged} {id : NodeId}

/-! ## Numbered trees and trees -/

/-- The children of the nodes of a tree are nodes of the tree. -/
theorem mem_idsOf_of_isParent (holds : stage.Holds (entriesIn parent row)) {child : NodeId}
    (member : id ∈ idsOf row) (isParent : stage.1.IsParent id child) : child ∈ idsOf row := by
  have isChild := holds.linked.isParent_iff.mp isParent
  induction row using tagged_induction generalizing parent with
  | nil => cases member
  | leaf own source content rest ofRest =>
      rw [idsOf_leaf] at member ⊢
      rcases List.mem_cons.mp member with rfl | isLater
      · have isIn := (holds.isIn _ List.mem_cons_self).cell
        rw [Forest.children, isIn] at isChild
        cases isChild
      · exact List.mem_cons_of_mem _ (ofRest holds.tail isLater)
  | block own source head settled children rest ofChildren ofRest =>
      rw [idsOf_block] at member ⊢
      have holdsBlock : stage.Holds
          ([_] ++ (entriesIn (some own) children ++ entriesIn parent rest)) :=
        holds
      rcases List.mem_cons.mp member with rfl | isBelow
      · have isIn := (holds.isIn _ List.mem_cons_self).cell
        rw [Forest.children, isIn] at isChild
        obtain ⟨tree, isTree, rfl⟩ := List.mem_map.mp isChild
        exact List.mem_cons_of_mem _ (List.mem_append_left _ (id_mem_idsOf isTree))
      · refine List.mem_cons_of_mem _ ?_
        rw [List.mem_append] at isBelow ⊢
        exact isBelow.imp (ofChildren holdsBlock.right.left) (ofRest holdsBlock.right.right)

theorem mem_idsOf_of_isAncestor (holds : stage.Holds (entriesIn parent row)) {other : NodeId}
    (member : id ∈ idsOf row) (isAncestor : stage.1.IsAncestor id other) : other ∈ idsOf row := by
  induction isAncestor with
  | single isParent => exact mem_idsOf_of_isParent holds member isParent
  | tail _ isParent inductionHypothesis =>
      exact mem_idsOf_of_isParent holds inductionHypothesis isParent

/-- A forest that holds the entries of trees has the trees, of which no marks count. -/
theorem Holds.hasTrees (holds : stage.Holds (entriesIn parent row)) :
    stage.1.HasTrees (row.map Tagged.id) (clearMarksIn (nodesOf row)) := by
  induction row using tagged_induction generalizing parent with
  | nil => trivial
  | leaf own source content rest ofRest =>
      have isIn := (holds.isIn _ List.mem_cons_self).cell
      refine ⟨⟨?_, ?_, ?_⟩, ofRest holds.tail⟩
      · exact congrArg Cell.kind isIn
      · exact congrArg Cell.source isIn
      · exact congrArg Cell.children isIn
  | block own source head settled children rest ofChildren ofRest =>
      have holdsBlock : stage.Holds
          ([_] ++ (entriesIn (some own) children ++ entriesIn parent rest)) :=
        holds
      have isIn := (holds.isIn _ List.mem_cons_self).cell
      refine ⟨⟨?_, ?_, rfl, ?_⟩, ofRest holdsBlock.right.right⟩
      · exact congrArg Cell.kind isIn
      · exact congrArg Cell.source isIn
      · have areChildren : stage.1.children own = children.map Tagged.id :=
          congrArg Cell.children isIn
        change stage.1.HasTrees (stage.1.children own) (clearMarksIn (nodesOf children))
        rw [areChildren]
        exact ofChildren holdsBlock.right.left

/-- No walk goes over the children of the node, nothing of its class is covered, and the pass is not
done with it. -/
structure IsFresh (stage : Stage) (id : NodeId) : Prop where
  bare : (stage.1.cell id).IsBare
  unsettled : id ∉ stage.2

/-- The entry of a fresh node with a parent. -/
theorem IsFresh.isIn (isFresh : stage.IsFresh id) (inUse : id < stage.1.size) {kind : Kind}
    {source : Option String} {parent : Option NodeId} {children : List NodeId}
    (isKind : (stage.1.cell id).kind = kind) (isSource : (stage.1.cell id).source = source)
    (isParent : stage.1.parent? id = parent) (areChildren : stage.1.children id = children) :
    Entry.IsIn ⟨id, { kind, source, parent, children }, false⟩ stage := by
  refine ⟨inUse, ?_, by simpa using isFresh.unsettled⟩
  calc stage.1.cell id
      = ⟨(stage.1.cell id).kind, (stage.1.cell id).source, stage.1.parent? id,
          stage.1.children id, (stage.1.cell id).cursors, (stage.1.cell id).covers⟩ := rfl
    _ = _ := by
        rw [isKind, isSource, isParent, areChildren, isFresh.bare.cursors,
          isFresh.bare.covers]

/-- What is below a child is not below its siblings. -/
theorem notMem_of_siblings (linked : stage.1.WellLinked) {child : NodeId} {ids : List NodeId}
    (isChild : stage.1.IsParent id child) (areChildren : ∀ other ∈ ids, stage.1.IsParent id other)
    (notOther : child ∉ ids)
    (below : ∀ other ∈ idsOf row, ∃ top ∈ ids, Relation.ReflTransGen stage.1.IsParent top other)
    {other : NodeId} (fromChild : Relation.ReflTransGen stage.1.IsParent child other) :
    other ∉ idsOf row := by
  intro again
  obtain ⟨top, isTop, above⟩ := below other again
  rcases Forest.isAncestor_total fromChild above with way | way
  · rw [← Forest.eq_of_siblings linked isChild (areChildren top isTop) way] at isTop
    exact notOther isTop
  · rw [Forest.eq_of_siblings linked (areChildren top isTop) isChild way] at isTop
    exact notOther isTop

/-- The trees at fresh children of one node can be numbered. -/
theorem exists_row (linked : stage.1.WellLinked) {ids : List NodeId} {trees : List Node}
    (areChildren : ∀ child ∈ ids, stage.1.IsParent id child) (nodup : ids.Nodup)
    (areFresh : ∀ other, stage.1.IsAncestor id other → stage.IsFresh other)
    (has : stage.1.HasTrees ids trees) :
    ∃ row, row.map Tagged.id = ids ∧ nodesOf row = trees ∧
      (∀ entry ∈ entriesIn (some id) row, entry.IsIn stage) ∧ (idsOf row).Nodup ∧
        ∀ other ∈ idsOf row, ∃ child ∈ ids,
          Relation.ReflTransGen stage.1.IsParent child other := by
  induction trees using forest_induction generalizing id ids with
  | nil =>
      cases ids with
      | nil => exact ⟨[], rfl, rfl, nofun, List.nodup_nil, nofun⟩
      | cons => exact has.elim
  | leaf source content rest ofRest =>
      obtain ⟨child, others, rfl, ⟨isKind, isSource, noChildren⟩, hasRest⟩ :=
        Forest.hasTrees_cons_iff.mp has
      obtain ⟨isChild, areChildren⟩ := List.forall_mem_cons.mp areChildren
      obtain ⟨notOther, nodup⟩ := List.nodup_cons.mp nodup
      obtain ⟨row, rfl, rfl, areIn, nodupRow, below⟩ := ofRest areChildren nodup areFresh hasRest
      have isIn := (areFresh child (.single isChild)).isIn (Forest.inUse_of_isParent isChild) isKind
        isSource isChild noChildren
      refine ⟨.leaf child source content :: row, rfl, rfl, List.forall_mem_cons.mpr ⟨isIn, areIn⟩,
        ?_, ?_⟩
      · rw [idsOf_leaf]
        exact List.nodup_cons.mpr
          ⟨notMem_of_siblings linked isChild areChildren notOther below .refl, nodupRow⟩
      · rw [idsOf_leaf]
        refine List.forall_mem_cons.mpr ⟨⟨child, List.mem_cons_self, .refl⟩, fun other member => ?_⟩
        obtain ⟨top, isTop, above⟩ := below other member
        exact ⟨top, List.mem_cons_of_mem _ isTop, above⟩
  | block source head settled children rest ofChildren ofRest =>
      obtain ⟨child, others, rfl, ⟨isKind, isSource, rfl, hasChildren⟩, hasRest⟩ :=
        Forest.hasTrees_cons_iff.mp has
      obtain ⟨isChild, areChildren⟩ := List.forall_mem_cons.mp areChildren
      obtain ⟨notOther, nodup⟩ := List.nodup_cons.mp nodup
      obtain ⟨row, rfl, rfl, areIn, nodupRow, below⟩ := ofRest areChildren nodup areFresh hasRest
      obtain ⟨inner, isInner, rfl, areInner, nodupInner, belowInner⟩ :=
        ofChildren (fun next member => linked.isParent_iff.mpr member) (linked.nodup child)
          (fun other isAncestor => areFresh other (.head isChild isAncestor)) hasChildren
      have isIn := (areFresh child (.single isChild)).isIn (Forest.inUse_of_isParent isChild) isKind
        isSource isChild isInner.symm
      have belowChild : ∀ other ∈ idsOf inner, stage.1.IsAncestor child other := by
        intro other member
        obtain ⟨next, isNext, above⟩ := belowInner other member
        exact .head' (linked.isParent_iff.mpr isNext) above
      have notBelow : ∀ {other}, Relation.ReflTransGen stage.1.IsParent child other →
          other ∉ idsOf row :=
        notMem_of_siblings linked isChild areChildren notOther below
      refine ⟨.block child source head false inner :: row, rfl, rfl, ?_, ?_, ?_⟩
      · exact List.forall_mem_cons.mpr ⟨isIn, List.forall_mem_append.mpr ⟨areInner, areIn⟩⟩
      · rw [idsOf_block, List.nodup_cons, List.nodup_append, List.mem_append, not_or]
        refine ⟨⟨fun again => linked.acyclic child (belowChild child again),
          notBelow .refl⟩, nodupInner, nodupRow, ?_⟩
        rintro other isInner _ again rfl
        exact notBelow (belowChild other isInner).to_reflTransGen again
      · rw [idsOf_block]
        refine List.forall_mem_cons.mpr ⟨⟨child, List.mem_cons_self, .refl⟩,
          List.forall_mem_append.mpr ⟨fun other member => ?_, fun other member => ?_⟩⟩
        · exact ⟨child, List.mem_cons_self, (belowChild other member).to_reflTransGen⟩
        · obtain ⟨top, isTop, above⟩ := below other member
          exact ⟨top, List.mem_cons_of_mem _ isTop, above⟩

variable (stage) in
/-- A tree whose nodes are fresh can be numbered. -/
theorem exists_tagged (linked : stage.1.WellLinked) (inUse : ∀ id ∈ stage.2, id < stage.1.size)
    (isUsed : id < stage.1.size) {tree : Node} (has : stage.1.HasTree id tree)
    (areFresh : ∀ other, Relation.ReflTransGen stage.1.IsParent id other → stage.IsFresh other) :
    ∃ tagged : Tagged, tagged.id = id ∧ tagged.node = tree ∧
      stage.Holds (entriesIn (stage.1.parent? id) [tagged]) ∧
        ∀ other ∈ idsOf [tagged], Relation.ReflTransGen stage.1.IsParent id other := by
  cases tree with
  | leaf source content =>
      obtain ⟨isKind, isSource, noChildren⟩ := has
      have isIn := (areFresh id .refl).isIn isUsed isKind isSource rfl noChildren
      refine ⟨.leaf id source content, rfl, rfl, ⟨linked, inUse, List.forall_mem_singleton.mpr isIn,
        List.nodup_singleton _⟩, ?_⟩
      rw [idsOf_leaf]
      exact List.forall_mem_singleton.mpr .refl
  | block source head settled children =>
      obtain ⟨isKind, isSource, rfl, hasChildren⟩ := has
      obtain ⟨row, isRow, rfl, areIn, nodup, below⟩ := exists_row linked
        (fun child member => linked.isParent_iff.mpr member) (linked.nodup id)
        (fun other isAncestor => areFresh other isAncestor.to_reflTransGen) hasChildren
      have isIn := (areFresh id .refl).isIn isUsed isKind isSource rfl isRow.symm
      have belowTop : ∀ other ∈ idsOf row, stage.1.IsAncestor id other := by
        intro other member
        obtain ⟨next, isNext, above⟩ := below other member
        exact .head' (linked.isParent_iff.mpr isNext) above
      refine ⟨.block id source head false row, rfl, rfl, ⟨linked, inUse, ?_, ?_⟩, ?_⟩
      · rw [entriesIn_cons, entriesIn_nil, List.append_nil]
        exact List.forall_mem_cons.mpr ⟨isIn, areIn⟩
      · rw [map_id_eq_idsOf, idsOf_block, idsOf_nil, List.append_nil]
        exact List.nodup_cons.mpr ⟨fun again => linked.acyclic id (belowTop id again), nodup⟩
      · rw [idsOf_block, idsOf_nil, List.append_nil]
        exact List.forall_mem_cons.mpr
          ⟨.refl, fun other member => (belowTop other member).to_reflTransGen⟩

end Stage

end ContainerPreview
