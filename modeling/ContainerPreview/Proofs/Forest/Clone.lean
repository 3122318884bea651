import ContainerPreview.Proofs.Forest.Apart
import ContainerPreview.Proofs.Forest.Copies
import ContainerPreview.Proofs.Forest.Fields

/-!
# Clones

A clone of a node is a tree of new nodes: the copy of the tree at the node, with those fields of
its top overwritten that are asked for.  It is written as the original is, the nodes that are
there do not change, and from then on neither of the two trees changes with the other.
-/

namespace ContainerPreview

namespace Forest

variable {forest forest' plain : Forest} {id copy : NodeId} {tree : Node}
  {overrides : List (String × FieldValue)}

/-! ## The two trees -/

/-- A node has been copied: all nodes at and below the copy are new, and no others are; the copy
has no parent; it has the copy of the tree at the node, and is written in the same way. -/
structure Copied (forest plain : Forest) (id copy : NodeId) : Prop where
  linked : WellLinked plain
  old : ∀ other < forest.size, plain.cell other = forest.cell other
  isNew : ∀ other, Relation.ReflTransGen plain.IsParent copy other ↔
    forest.size ≤ other ∧ other < plain.size
  detached : plain.parent? copy = none
  tree : ∃ tree, forest.HasTree id tree ∧ plain.HasTree copy tree.copy
  text : ∀ depth, ∃ text, forest.cssAt depth id = .ok text ∧ plain.cssAt depth copy = .ok text

/-- Whatever is done to other nodes, a node and the nodes below it stay as they are. -/
def Independent (forest : Forest) (id : NodeId) : Prop :=
  ∀ mutations : List Mutation,
    (∀ mutation ∈ mutations, ∀ node ∈ mutation.changes,
      ¬ Relation.ReflTransGen forest.IsParent id node) →
    ∀ node, Relation.ReflTransGen forest.IsParent id node →
      (mutate mutations forest).cell node = forest.cell node

/-- Two nodes have no node below them in common, and each of them stays with those below it while
the other is changed. -/
structure Separate (forest : Forest) (id copy : NodeId) : Prop where
  disjoint : ∀ node, Relation.ReflTransGen forest.IsParent id node →
    ¬ Relation.ReflTransGen forest.IsParent copy node
  independent : Independent forest id
  independentCopy : Independent forest copy

theorem independent (inUse : id < forest.size) : Independent forest id :=
  fun _ outside _ orBelow => cell_mutate (secluded_below inUse) outside orBelow

/-! ## Nodes at and below the copy -/

/-- A new node has new nodes below it only, since a node that was there keeps its parent. -/
theorem Grown.isNew_iff {copies : List NodeId} {trees : List Node}
    (grown : Grown forest plain copies trees) (linked : WellLinked forest) (other : NodeId) :
    (∃ copy ∈ copies, Relation.ReflTransGen plain.IsParent copy other) ↔
      forest.size ≤ other ∧ other < plain.size := by
  refine ⟨?_, fun isNew => grown.covers other isNew.1 isNew.2⟩
  rintro ⟨copy, member, orBelow⟩
  induction orBelow with
  | refl => exact grown.isNew copy member
  | @tail parent child _ isParent isNew =>
      refine ⟨Nat.le_of_not_lt fun isOld => ?_, inUse_of_isParent isParent⟩
      have wasParent : forest.IsParent parent child :=
        (congrArg Cell.parent (grown.old child isOld)).symm.trans isParent
      have wasInUse := inUse_of_mem_children (linked.isParent_iff.mp wasParent)
      exact Nat.not_lt.mpr isNew.1 wasInUse

theorem Copied.disjoint (copied : Copied forest plain id copy) (inUse : id < forest.size)
    (node : NodeId) (orBelow : Relation.ReflTransGen plain.IsParent id node) :
    ¬ Relation.ReflTransGen plain.IsParent copy node := by
  intro orBelowCopy
  have notNew : ¬ Relation.ReflTransGen plain.IsParent copy id := fun above =>
    Nat.not_lt.mpr ((copied.isNew id).mp above).1 inUse
  rcases isAncestor_total orBelow orBelowCopy with above | above
  · rcases Relation.ReflTransGen.cases_tail above with same | ⟨parent, -, isParent⟩
    · exact notNew (same ▸ .refl)
    · exact nomatch copied.detached.symm.trans isParent
  · exact notNew above

/-- The top of a copy is of the same kind and from the same file. -/
theorem HasTree.sameTop (has : forest.HasTree id tree) (hasCopy : plain.HasTree copy tree.copy) :
    (plain.cell copy).kind = (forest.cell id).kind ∧
      (plain.cell copy).source = (forest.cell id).source := by
  cases tree with
  | leaf source content =>
      exact ⟨hasCopy.1.trans has.1.symm, hasCopy.2.1.trans has.2.1.symm⟩
  | block source head settled children =>
      exact ⟨hasCopy.1.trans has.1.symm, hasCopy.2.1.trans has.2.1.symm⟩

theorem Copied.field? (copied : Copied forest plain id copy) (field : String) :
    (plain.cell copy).field? field = (forest.cell id).field? field := by
  obtain ⟨tree, has, hasCopy⟩ := copied.tree
  obtain ⟨sameKind, sameSource⟩ := has.sameTop hasCopy
  rw [Cell.field?, Cell.field?, sameKind, sameSource]

/-- What is refused by the copy is what its original refuses. -/
theorem Copied.refusal? (copied : Copied forest plain id copy) (kindName : String)
    (entry : String × FieldValue) :
    refusal? kindName (plain.cell copy) entry = refusal? kindName (forest.cell id) entry := by
  obtain ⟨tree, has, hasCopy⟩ := copied.tree
  exact refusal?_congr (congrArg Kind.className (has.sameTop hasCopy).1) kindName entry

theorem Overridden.isParent_eq (overridden : Overridden plain forest' copy overrides) :
    forest'.IsParent = plain.IsParent := by
  have sameParent : ∀ child, forest'.parent? child = plain.parent? child := by
    intro child
    by_cases same : child = copy
    · exact same ▸ overridden.parent
    · exact congrArg Cell.parent (overridden.others child same)
  funext parent child
  rw [IsParent, IsParent, sameParent]

theorem Copied.separate (copied : Copied forest plain id copy) (inUse : id < forest.size)
    (overridden : Overridden plain forest' copy overrides) : Separate forest' id copy := by
  obtain ⟨isNew, copyInUse⟩ := (copied.isNew copy).mp .refl
  have inUse' : id < plain.size :=
    Nat.lt_of_lt_of_le inUse (Nat.le_trans isNew (Nat.le_of_lt copyInUse))
  refine ⟨fun node => ?_, independent (overridden.size ▸ inUse'),
    independent (overridden.size ▸ copyInUse)⟩
  rw [overridden.isParent_eq]
  exact copied.disjoint inUse node

/-! ## Cloning -/

theorem apply_clone (forest : Forest) (id : NodeId) (overrides : List (String × FieldValue)) :
    (clone id overrides).apply forest =
      match (copyTo (forest.size + 1) id).apply forest with
      | (.ok copy, plain) =>
          match (override (plain.kindName id) copy overrides).apply plain with
          | (.ok (), changed) => (.ok copy, changed)
          | (.error error, changed) => (.error error, changed)
      | (.error error, changed) => (.error error, changed) := by
  rw [clone, Edit.apply_bind, Edit.apply_get]
  dsimp only
  rw [Edit.apply_bind]
  rcases (copyTo (forest.size + 1) id).apply forest with ⟨_ | copy, plain⟩
  · rfl
  · dsimp only
    rw [Edit.apply_bind, Edit.apply_get]
    dsimp only
    rw [Edit.apply_bind]
    rcases (override (plain.kindName id) copy overrides).apply plain with ⟨_ | _, changed⟩ <;> rfl

theorem exists_copied (linked : WellLinked forest) (inUse : id < forest.size)
    (specific : ∀ node, Relation.ReflTransGen forest.IsParent id node →
      (forest.cell node).kind.isGeneric = false) :
    ∃ copy plain, (copyTo (forest.size + 1) id).apply forest = (.ok copy, plain) ∧
      Copied forest plain id copy := by
  obtain ⟨tree, has, atMost⟩ := exists_hasTree linked inUse specific
  obtain ⟨copy, plain, isCopy, grown⟩ :=
    copiesTree_copyTo (forest.size + 1) tree (Nat.lt_succ_of_le atMost) forest id linked inUse has
  have hasCopy : plain.HasTree copy tree.copy := hasTrees_singleton_iff.mp grown.has
  refine ⟨copy, plain, isCopy, grown.linked, grown.old, fun other => ?_,
    grown.detached copy (List.mem_singleton_self copy), ⟨tree, has, hasCopy⟩, fun depth => ?_⟩
  · rw [← grown.isNew_iff linked other]
    simp
  · refine ⟨tree.cssAt depth, has.cssAt_eq atMost depth, ?_⟩
    rw [← Node.cssAt_copy]
    exact hasCopy.cssAt_eq (height_copy tree ▸ Nat.le_trans atMost grown.grows) depth

/-- Cloning a node that has nothing generic at it or below it.  The clone without overrides is a
copy of the node.  If no name to be overwritten is refused, the clone differs from it in these
attributes of its top only, and shares nothing with the original.  Otherwise the reason for the
first name that is refused is reported, and no node that was there has changed.  A name that is no
attribute of the node is refused as such, and so are its parent and its children; of the other
attributes exactly those are refused that are computed or take special values. -/
theorem clone_copies (linked : WellLinked forest) (inUse : id < forest.size)
    (specific : ∀ node, Relation.ReflTransGen forest.IsParent id node →
      (forest.cell node).kind.isGeneric = false) :
    ∃ copy plain, (clone id []).apply forest = (.ok copy, plain) ∧ Copied forest plain id copy ∧
      (∀ overrides, (∀ entry ∈ overrides,
          refusal? (forest.kindName id) (forest.cell id) entry = none) →
        ∃ forest', (clone id overrides).apply forest = (.ok copy, forest') ∧
          Overridden plain forest' copy overrides ∧ Separate forest' id copy) ∧
      (∀ overrides entry error,
        overrides.find? (fun entry =>
          (refusal? (forest.kindName id) (forest.cell id) entry).isSome) = some entry →
        refusal? (forest.kindName id) (forest.cell id) entry = some error →
          ∃ forest', (clone id overrides).apply forest = (.error error, forest') ∧
            ∀ other < forest.size, forest'.cell other = forest.cell other) ∧
      ∀ entry : String × FieldValue, refusal? (forest.kindName id) (forest.cell id) entry =
        if (forest.cell id).kind.hasAttribute entry.1 = false ∨ entry.1 = "parent" ∨
            entry.1 = "nodes" then
          some (.cannotOverride entry.1 (forest.kindName id))
        else if entry.1 ∈ (forest.cell id).kind.computedNames ∨ entry.1 = "__weakref__" then
          some (.readOnly entry.1 (forest.cell id).kind.className)
        else if entry.1 ∈ Kind.specialNames then some (.wrongSort entry.1 entry.2.sortName)
        else none := by
  obtain ⟨copy, plain, isCopy, copied⟩ := exists_copied linked inUse specific
  have copyInUse := ((copied.isNew copy).mp .refl).2
  have sameName : plain.kindName id = forest.kindName id :=
    congrArg Cell.kindName (copied.old id inUse)
  refine ⟨copy, plain, ?_, copied, fun overrides accepted => ?_,
    fun overrides entry error isFirst isRefusal => ?_, fun entry => refusal?_eq ..⟩
  · rw [apply_clone, isCopy]
    rfl
  · have accepted' : ∀ entry ∈ overrides,
        refusal? (forest.kindName id) (plain.cell copy) entry = none :=
      fun entry member => (copied.refusal? ..).trans (accepted entry member)
    obtain ⟨forest', done, overridden⟩ := exists_overridden copyInUse accepted'
    refine ⟨forest', ?_, overridden, copied.separate inUse overridden⟩
    rw [apply_clone, isCopy]
    dsimp only
    rw [sameName, done]
  · simp only [← copied.refusal?] at isFirst isRefusal
    obtain ⟨forest', failed⟩ := apply_override_fails copyInUse isFirst isRefusal
    have isResult : (clone id overrides).apply forest = (.error error, forest') := by
      rw [apply_clone, isCopy]
      dsimp only
      rw [sameName, failed]
    have left := Avoids.clone id overrides forest (secluded_all forest)
    rw [isResult] at left
    exact ⟨forest', isResult, left.cell⟩

/-- A rule with two declarations is cloned with another selector. -/
theorem clone_copies_copiedForest :
    (WellLinked copiedForest ∧ 2 < copiedForest.size ∧
        ∀ node, Relation.ReflTransGen copiedForest.IsParent 2 node →
          (copiedForest.cell node).kind.isGeneric = false) ∧
      ∃ copy plain forest', (clone 2 []).apply copiedForest = (.ok copy, plain) ∧
        Copied copiedForest plain 2 copy ∧
        (clone 2 [("selector", .text "c")]).apply copiedForest = (.ok copy, forest') ∧
        Overridden plain forest' copy [("selector", .text "c")] ∧ Separate forest' 2 copy := by
  have inUse : 2 < copiedForest.size := by decide
  have specific : ∀ node, Relation.ReflTransGen copiedForest.IsParent 2 node →
      (copiedForest.cell node).kind.isGeneric = false := by
    have all : ∀ node < copiedForest.size, (copiedForest.cell node).kind.isGeneric = false := by
      decide
    exact fun node orBelow => all node ((secluded_below inUse).inUse node orBelow)
  obtain ⟨copy, plain, done, copied, overrides, -⟩ :=
    clone_copies wellLinked_copiedForest inUse specific
  obtain ⟨forest', done', overridden, separate⟩ := overrides [("selector", .text "c")]
    (List.forall_mem_singleton.mpr (by decide))
  exact ⟨⟨wellLinked_copiedForest, inUse, specific⟩, copy, plain, forest', done, copied, done',
    overridden, separate⟩

end Forest

end ContainerPreview
