/-!
# Style sheets as trees

A style sheet is a tree.  Its leaves are declarations and comments; its blocks
are the sheet itself, rules, and at-rules.  Every node may name the file it
comes from; a child without a file takes that of the block it is put into, at
the moment it is put there.

A block also carries a mark that says whether a pass over the tree is done with
it.  Marks mean nothing outside a pass: `clearMarks` removes them, and no text
shows them.

The tree is a nested inductive type.  Functions on it come in pairs, one for a
node and one for a list of nodes, and facts about lists of nodes are proved by
`forest_induction`, which has a case for a leaf and one for a block in front of
further nodes.
-/

namespace ContainerPreview

/-- A property with its value. -/
structure Declaration where
  property : String
  value : String
  important : Bool := false
deriving DecidableEq, Repr, Inhabited

/-- What a leaf of the tree holds. -/
inductive Leaf where
  | declaration (declaration : Declaration)
  | comment (text : String)
deriving DecidableEq, Repr, Inhabited

/-- What a block of the tree is: the sheet itself, a rule with its selector
list, or an at-rule with its name and parameters.  An at-rule without a block
of its own ends in a semicolon. -/
inductive Head where
  | sheet
  | rule (selector : String)
  | atRule (name params : String) (hasBlock : Bool)
deriving DecidableEq, Repr, Inhabited

/-- A node of a style sheet. -/
inductive Node where
  | leaf (source : Option String) (content : Leaf)
  | block (source : Option String) (head : Head) (settled : Bool) (children : List Node)
deriving Repr, Inhabited

/-- Induction on a list of nodes: a leaf or a block stands in front of further
nodes, and a block has children of its own. -/
theorem forest_induction {motive : List Node → Prop} (nil : motive [])
    (leaf : ∀ source content rest, motive rest → motive (.leaf source content :: rest))
    (block : ∀ source head settled children rest, motive children → motive rest →
      motive (.block source head settled children :: rest)) :
    ∀ nodes, motive nodes := fun nodes =>
  Node.rec_1 (motive_1 := fun node => ∀ rest, motive rest → motive (node :: rest))
    (fun source content rest ofRest => leaf source content rest ofRest)
    (fun source head settled children ofChildren rest ofRest =>
      block source head settled children rest ofChildren ofRest)
    nil (fun _ _ ofNode ofRest => ofNode _ ofRest) nodes

mutual
/-- Equality of nodes is decided by comparing them field by field. -/
def Node.decEq : (left right : Node) → Decidable (left = right)
  | .leaf source content, .leaf source' content' =>
      if same : source = source' ∧ content = content' then .isTrue (by rw [same.1, same.2])
      else .isFalse (by simpa using same)
  | .leaf .., .block .. => .isFalse (by simp)
  | .block .., .leaf .. => .isFalse (by simp)
  | .block source head settled children, .block source' head' settled' children' =>
      if same : source = source' ∧ head = head' ∧ settled = settled' then
        match Node.decEqAll children children' with
        | .isTrue sameChildren => .isTrue (by rw [same.1, same.2.1, same.2.2, sameChildren])
        | .isFalse differ => .isFalse (by simp [differ])
      else .isFalse (by
        intro equal
        cases equal
        exact same ⟨rfl, rfl, rfl⟩)
/-- Equality of lists of nodes. -/
def Node.decEqAll : (left right : List Node) → Decidable (left = right)
  | [], [] => .isTrue rfl
  | [], _ :: _ => .isFalse (by simp)
  | _ :: _, [] => .isFalse (by simp)
  | node :: nodes, node' :: nodes' =>
      match Node.decEq node node', Node.decEqAll nodes nodes' with
      | .isTrue same, .isTrue sameRest => .isTrue (by rw [same, sameRest])
      | .isFalse differ, _ => .isFalse (by simp [differ])
      | _, .isFalse differ => .isFalse (by simp [differ])
end

instance : DecidableEq Node :=
  Node.decEq

namespace Node

/-- The file a node comes from. -/
def source : Node → Option String
  | .leaf source _ => source
  | .block source _ _ _ => source

/-- The children of a node. -/
def children : Node → List Node
  | .leaf _ _ => []
  | .block _ _ _ children => children

/-- What a block is. -/
def head? : Node → Option Head
  | .leaf _ _ => none
  | .block _ head _ _ => some head

/-- The pass is done with the node. -/
def isSettled : Node → Bool
  | .leaf _ _ => false
  | .block _ _ settled _ => settled

/-- The selector list of a rule. -/
def selector? : Node → Option String
  | .block _ (.rule selector) _ _ => some selector
  | _ => none

/-- The declaration that a leaf holds. -/
def declaration? : Node → Option Declaration
  | .leaf _ (.declaration declaration) => some declaration
  | _ => none

/-- The node with the children replaced. -/
def withChildren (node : Node) (children : List Node) : Node :=
  match node with
  | .leaf source content => .leaf source content
  | .block source head settled _ => .block source head settled children

/-- The node as it is put into a block from the given file: without a file of
its own it takes that one. -/
def inherit (file : Option String) : Node → Node
  | .leaf source content => .leaf (source.or file) content
  | .block source head settled children => .block (source.or file) head settled children

/-- A block made of children that exist already. -/
def assemble (source : Option String) (head : Head) (children : List Node) : Node :=
  .block source head false (children.map (inherit source))

@[simp]
theorem source_inherit (file : Option String) (node : Node) :
    (node.inherit file).source = node.source.or file := by
  cases node <;> rfl

@[simp]
theorem children_inherit (file : Option String) (node : Node) :
    (node.inherit file).children = node.children := by
  cases node <;> rfl

end Node

mutual
/-- A copy of a node.  Children are copied before they are put into the copy,
and no copy is marked. -/
def Node.copy : Node → Node
  | .leaf source content => .leaf source content
  | .block source head _ children => .block source head false (copyInto source children)
/-- Copies of nodes, put into a block from the given file. -/
def copyInto (file : Option String) : List Node → List Node
  | [] => []
  | node :: nodes => node.copy.inherit file :: copyInto file nodes
end

mutual
/-- The node with no block in it marked. -/
def Node.clearMarks : Node → Node
  | .leaf source content => .leaf source content
  | .block source head _ children => .block source head false (clearMarksIn children)
/-- The nodes with no block in them marked. -/
def clearMarksIn : List Node → List Node
  | [] => []
  | node :: nodes => node.clearMarks :: clearMarksIn nodes
end

mutual
/-- The nodes below a node, in document order: each before those below it. -/
def Node.descendants : Node → List Node
  | .leaf _ _ => []
  | .block _ _ _ children => descendantsIn children
/-- The given nodes and all nodes below them, in document order. -/
def descendantsIn : List Node → List Node
  | [] => []
  | node :: nodes => node :: node.descendants ++ descendantsIn nodes
end

mutual
/-- How many levels of blocks a node has. -/
def Node.height : Node → Nat
  | .leaf _ _ => 0
  | .block _ _ _ children => heightIn children + 1
/-- The height of the highest node of a list. -/
def heightIn : List Node → Nat
  | [] => 0
  | node :: nodes => max node.height (heightIn nodes)
end

/-- The declarations at any depth of a list of nodes, in document order. -/
def declarationsIn (nodes : List Node) : List Declaration :=
  (descendantsIn nodes).filterMap Node.declaration?

/-- The selector lists of the rules at any depth of a list of nodes, in
document order. -/
def selectorsIn (nodes : List Node) : List String :=
  (descendantsIn nodes).filterMap Node.selector?

@[simp]
theorem descendantsIn_nil : descendantsIn [] = [] :=
  rfl

@[simp]
theorem descendantsIn_leaf (source : Option String) (content : Leaf) (rest : List Node) :
    descendantsIn (.leaf source content :: rest) = .leaf source content :: descendantsIn rest :=
  rfl

@[simp]
theorem descendantsIn_block (source : Option String) (head : Head) (settled : Bool)
    (children rest : List Node) :
    descendantsIn (.block source head settled children :: rest) =
      .block source head settled children :: (descendantsIn children ++ descendantsIn rest) :=
  rfl

@[simp]
theorem descendantsIn_append (left right : List Node) :
    descendantsIn (left ++ right) = descendantsIn left ++ descendantsIn right := by
  induction left with
  | nil => rfl
  | cons node nodes inductionHypothesis =>
      simp [descendantsIn, inductionHypothesis]

@[simp]
theorem declarationsIn_append (left right : List Node) :
    declarationsIn (left ++ right) = declarationsIn left ++ declarationsIn right := by
  simp [declarationsIn]

@[simp]
theorem clearMarksIn_append (left right : List Node) :
    clearMarksIn (left ++ right) = clearMarksIn left ++ clearMarksIn right := by
  induction left with
  | nil => rfl
  | cons node nodes inductionHypothesis => simp [clearMarksIn, inductionHypothesis]

end ContainerPreview
