import ContainerPreview.Proofs.Forest.Copies

/-!
# Trees that are put into a forest

Putting a tree into a linked forest always succeeds.  The forest grows by the nodes of one tree
without a parent, made from below: the children of a block are there before it, and it gives its
file to those of them that have none.  A tree all of whose nodes come from one file, and of which
none is marked, is put into the forest as it is.
-/

namespace ContainerPreview

/-- Copies of nodes from the file of the block that they are put into. -/
theorem copyInto_eq_self {file : Option String} {nodes : List Node}
    (ofFile : ∀ node ∈ descendantsIn nodes, node.source = file) (unmarked : Unmarked nodes) :
    copyInto file nodes = nodes := by
  induction nodes using forest_induction with
  | nil => rfl
  | leaf source content rest ofRest =>
      obtain ⟨here, later⟩ := forall_descendantsIn_leaf.mp ofFile
      obtain rfl : source = file := here
      rw [copyInto, ofRest later (unmarked_leaf.mp unmarked), Node.copy, Node.inherit,
        Option.or_self]
  | block source head settled children rest ofChildren ofRest =>
      obtain ⟨here, below, later⟩ := forall_descendantsIn_block.mp ofFile
      obtain ⟨rfl, belowUnmarked, laterUnmarked⟩ := unmarked_block.mp unmarked
      obtain rfl : source = file := here
      rw [copyInto, ofRest later laterUnmarked, Node.copy, ofChildren below belowUnmarked,
        Node.inherit, Option.or_self]

/-- A copy of a tree whose nodes come from one file. -/
theorem Node.copy_eq_self {file : Option String} {node : Node}
    (ofFile : ∀ other ∈ node :: node.descendants, other.source = file)
    (unmarked : ∀ other ∈ node :: node.descendants, other.isSettled = false) :
    node.copy = node := by
  cases node with
  | leaf => rfl
  | block source head settled children =>
      obtain ⟨here, below⟩ := List.forall_mem_cons.mp ofFile
      obtain ⟨isUnmarked, belowUnmarked⟩ := List.forall_mem_cons.mp unmarked
      obtain rfl : source = file := here
      obtain rfl : settled = false := isUnmarked
      rw [Node.copy, copyInto_eq_self below belowUnmarked]

namespace Forest

mutual
/-- A tree is put into a linked forest as its copy. -/
theorem exists_grown_plant : ∀ (tree : Node) {forest : Forest}, WellLinked forest →
    ∃ id forest', (plant tree).apply forest = (.ok id, forest') ∧
      Grown forest forest' [id] [tree.copy]
  | .leaf source content, forest, linked =>
      ⟨forest.size, _, rfl, .leaf linked source content⟩
  | .block source head _ children, forest, linked => by
      obtain ⟨ids, middle, planted, grown⟩ := exists_grown_plantAll children linked
      obtain ⟨forest', made, enclosed⟩ := exists_enclosed grown.linked source head
        (fun id member => (grown.isNew id member).2) grown.nodup grown.detached
      refine ⟨middle.size, forest', ?_, ?_⟩
      · rw [plant, Edit.apply_bind, planted]
        exact made
      · rw [Node.copy, copyInto_eq]
        exact grown.block enclosed
/-- Trees are put into a linked forest one after another. -/
theorem exists_grown_plantAll : ∀ (trees : List Node) {forest : Forest}, WellLinked forest →
    ∃ ids forest', (plantAll trees).apply forest = (.ok ids, forest') ∧
      Grown forest forest' ids (trees.map Node.copy)
  | [], forest, linked => ⟨[], forest, rfl, .refl linked⟩
  | tree :: trees, forest, linked => by
      obtain ⟨id, middle, planted, grown⟩ := exists_grown_plant tree linked
      obtain ⟨ids, forest', plantedRest, grownRest⟩ := exists_grown_plantAll trees grown.linked
      refine ⟨id :: ids, forest', ?_, grown.append grownRest⟩
      rw [plantAll, Edit.apply_bind, planted]
      dsimp only
      rw [Edit.apply_bind, plantedRest]
      rfl
end

end Forest

end ContainerPreview
