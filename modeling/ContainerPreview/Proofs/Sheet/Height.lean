import ContainerPreview.Proofs.Sheet.Shape

/-!
# Heights of trees

How copying, marking and joining act on the number of levels of a tree.  The
height of a list is the least bound on the heights of its nodes.
-/

namespace ContainerPreview

@[simp]
theorem heightIn_nil : heightIn [] = 0 :=
  rfl

@[simp]
theorem heightIn_cons (node : Node) (nodes : List Node) :
    heightIn (node :: nodes) = max node.height (heightIn nodes) :=
  rfl

@[simp]
theorem height_leaf (source : Option String) (content : Leaf) :
    (Node.leaf source content).height = 0 :=
  rfl

@[simp]
theorem height_block (source : Option String) (head : Head) (settled : Bool)
    (children : List Node) :
    (Node.block source head settled children).height = heightIn children + 1 :=
  rfl

theorem heightIn_le_iff {nodes : List Node} {levels : Nat} :
    heightIn nodes ≤ levels ↔ ∀ node ∈ nodes, node.height ≤ levels := by
  induction nodes with
  | nil => simp
  | cons node rest inductionHypothesis =>
      rw [heightIn_cons, Nat.max_le, inductionHypothesis, List.forall_mem_cons]

theorem height_le_heightIn {node : Node} {nodes : List Node} (member : node ∈ nodes) :
    node.height ≤ heightIn nodes :=
  heightIn_le_iff.mp (Nat.le_refl _) node member

@[simp]
theorem heightIn_append (left right : List Node) :
    heightIn (left ++ right) = max (heightIn left) (heightIn right) := by
  induction left with
  | nil => simp
  | cons node rest inductionHypothesis => simp [inductionHypothesis, Nat.max_assoc]

@[simp]
theorem height_inherit (file : Option String) (node : Node) :
    (node.inherit file).height = node.height := by
  cases node <;> rfl

@[simp]
theorem heightIn_map_inherit (file : Option String) (nodes : List Node) :
    heightIn (nodes.map (Node.inherit file)) = heightIn nodes := by
  induction nodes with
  | nil => rfl
  | cons node rest inductionHypothesis => simp [inductionHypothesis]

@[simp]
theorem heightIn_copyInto (file : Option String) (nodes : List Node) :
    heightIn (copyInto file nodes) = heightIn nodes := by
  induction nodes using forest_induction generalizing file with
  | nil => rfl
  | leaf source content rest ofRest => simp [copyInto, Node.copy, ofRest]
  | block source head settled children rest ofChildren ofRest =>
      simp [copyInto, Node.copy, ofChildren, ofRest]

@[simp]
theorem height_copy (node : Node) : node.copy.height = node.height := by
  cases node <;> simp [Node.copy]

@[simp]
theorem heightIn_clearMarksIn (nodes : List Node) :
    heightIn (clearMarksIn nodes) = heightIn nodes := by
  induction nodes using forest_induction with
  | nil => rfl
  | leaf source content rest ofRest => simp [clearMarksIn, Node.clearMarks, ofRest]
  | block source head settled children rest ofChildren ofRest =>
      simp [clearMarksIn, Node.clearMarks, ofChildren, ofRest]

@[simp]
theorem heightIn_settleMediaIn (nodes : List Node) :
    heightIn (settleMediaIn nodes) = heightIn nodes := by
  induction nodes using forest_induction with
  | nil => rfl
  | leaf source content rest ofRest => simp [settleMediaIn, Node.settleMedia, ofRest]
  | block source head settled children rest ofChildren ofRest =>
      simp [settleMediaIn, Node.settleMedia, ofChildren, ofRest]

@[simp]
theorem height_clearMarks (node : Node) : node.clearMarks.height = node.height := by
  simpa [clearMarksIn] using heightIn_clearMarksIn [node]

end ContainerPreview
