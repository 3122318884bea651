import ContainerPreview.Transform.Toggle.Media

/-!
# Shapes of style sheets

Conditions on the shape of a tree, each stated for all nodes below a list of
nodes, and what copying and marking leave of a tree: its shape, its height and
its selectors.

A sheet is plain if its rules hold only declarations and comments, and if media
blocks stand in other media blocks directly or not at all.
-/

namespace ContainerPreview

/-! ## Kinds of nodes -/

namespace Node

/-- The node is a declaration or a comment. -/
def isLeaf : Node → Bool
  | .leaf _ _ => true
  | .block _ _ _ _ => false

/-- The node is a rule. -/
def isRule (node : Node) : Bool :=
  node.selector?.isSome

/-- The node is an at-rule. -/
def isAtRule : Node → Bool
  | .block _ (.atRule _ _ _) _ _ => true
  | _ => false

/-- The node is a media block. -/
def isMedia (node : Node) : Bool :=
  node.head?.any Head.isMedia

/-- The node is a container block. -/
def isContainerBlock : Node → Bool
  | .block _ (.atRule name _ _) _ _ => name == "container"
  | _ => false

end Node

theorem isRule_block_eq_false {source : Option String} {head : Head} {settled : Bool}
    {children : List Node} (noRule : ∀ selector, head ≠ .rule selector) :
    (Node.block source head settled children).isRule = false := by
  cases head with
  | sheet => rfl
  | rule selector => exact absurd rfl (noRule selector)
  | atRule name params hasBlock => rfl

/-- What is directly in a media block is not directly in keyframes. -/
@[simp]
theorem Head.isKeyframes_media (params : String) (hasBlock : Bool) :
    (Head.atRule "media" params hasBlock).isKeyframes = false := by
  rw [Head.isKeyframes]
  decide

/-- What is directly in a container block is not directly in keyframes. -/
@[simp]
theorem Head.isKeyframes_container (params : String) (hasBlock : Bool) :
    (Head.atRule "container" params hasBlock).isKeyframes = false := by
  rw [Head.isKeyframes]
  decide

/-- Induction on a list of leaves. -/
theorem leaves_induction
    {motive : (nodes : List Node) → (∀ node ∈ nodes, node.isLeaf) → Prop}
    (nil : motive [] (List.forall_mem_nil _))
    (leaf : ∀ source content rest (leaves : ∀ node ∈ rest, node.isLeaf), motive rest leaves →
      motive (.leaf source content :: rest) (List.forall_mem_cons.mpr ⟨rfl, leaves⟩)) :
    ∀ nodes leaves, motive nodes leaves := by
  intro nodes
  induction nodes with
  | nil => exact fun _ => nil
  | cons node rest inductionHypothesis =>
      intro leaves
      rcases List.forall_mem_cons.mp leaves with ⟨isLeaf, restLeaves⟩
      cases node with
      | leaf source content => exact leaf source content rest restLeaves (inductionHypothesis _)
      | block => cases isLeaf

@[simp]
theorem isContainerBlock_inherit (file : Option String) (node : Node) :
    (node.inherit file).isContainerBlock = node.isContainerBlock := by
  rcases node with _ | ⟨_, _ | _ | _, _, _⟩ <;> rfl

/-! ## Conditions on all nodes -/

/-- Every rule holds only declarations and comments. -/
def FlatRules (nodes : List Node) : Prop :=
  ∀ node ∈ descendantsIn nodes, node.isRule → ∀ child ∈ node.children, child.isLeaf

/-- There is no media block. -/
def NoMedia (nodes : List Node) : Prop :=
  ∀ node ∈ descendantsIn nodes, node.isMedia = false

/-- Every media block is marked. -/
def MediaSettled (nodes : List Node) : Prop :=
  ∀ node ∈ descendantsIn nodes, node.isMedia → node.isSettled

/-- No block is marked. -/
def Unmarked (nodes : List Node) : Prop :=
  ∀ node ∈ descendantsIn nodes, node.isSettled = false

/-- There is no media block, and every rule holds only declarations and
comments. -/
structure Simple (nodes : List Node) : Prop where
  flat : FlatRules nodes
  noMedia : NoMedia nodes

/-- No media block lies below an at-rule of another kind. -/
def MediaOutermost (nodes : List Node) : Prop :=
  ∀ between ∈ descendantsIn nodes, between.isAtRule → between.isMedia = false →
    NoMedia between.children

/-- The nodes below the top of a style sheet of the simple kind. -/
structure Plain (nodes : List Node) : Prop where
  /-- Rules have no blocks in them. -/
  flat : FlatRules nodes
  /-- No media block lies below a block of another kind that itself lies below a
  media block. -/
  unburied : ∀ outer ∈ descendantsIn nodes, outer.isMedia → MediaOutermost outer.children
  /-- The sheet itself is the only one. -/
  noSheet : ∀ node ∈ descendantsIn nodes, node.head? ≠ some .sheet

/-- The condition passes from nodes to each of them and to the nodes in a block,
and it stays with a block that is no rule if it is met by new nodes in it. -/
structure Hereditary (condition : List Node → Prop) : Prop where
  append : ∀ {left right}, condition (left ++ right) ↔ condition left ∧ condition right
  children : ∀ {source head settled children},
    condition [.block source head settled children] → condition children
  block : ∀ {source head settled before after}, (∀ selector, head ≠ .rule selector) →
    condition [.block source head settled before] → condition after →
      condition [.block source head settled after]

/-- The selector lists of all rules are of a kind. -/
def EachSelector (P : String → Prop) (nodes : List Node) : Prop :=
  ∀ selector ∈ selectorsIn nodes, P selector

/-- None of the selector lists contains a guard. -/
abbrev Unguarded (toggle : Toggle) : List Node → Prop :=
  EachSelector fun selector => toggle.isGuarded selector = false

/-- None of the selector lists contains the guard of the viewport. -/
abbrev ViewportFree (toggle : Toggle) : List Node → Prop :=
  EachSelector fun selector => Text.contains selector toggle.viewportGuard = false

/-- None of the selector lists is empty or blank. -/
abbrev Named : List Node → Prop :=
  EachSelector fun selector => Selector.selectorsOf selector.toList ≠ []

instance (nodes : List Node) : Decidable (FlatRules nodes) :=
  inferInstanceAs (Decidable (∀ node ∈ descendantsIn nodes, node.isRule →
    ∀ child ∈ node.children, child.isLeaf))

instance (nodes : List Node) : Decidable (NoMedia nodes) :=
  inferInstanceAs (Decidable (∀ node ∈ descendantsIn nodes, node.isMedia = false))

instance (nodes : List Node) : Decidable (MediaOutermost nodes) :=
  inferInstanceAs (Decidable (∀ between ∈ descendantsIn nodes, between.isAtRule →
    between.isMedia = false → NoMedia between.children))

instance (nodes : List Node) : Decidable (Plain nodes) :=
  decidable_of_iff
    (FlatRules nodes ∧
      (∀ outer ∈ descendantsIn nodes, outer.isMedia → MediaOutermost outer.children) ∧
      ∀ node ∈ descendantsIn nodes, node.head? ≠ some .sheet)
    ⟨fun ⟨flat, unburied, noSheet⟩ => ⟨flat, unburied, noSheet⟩,
      fun plain => ⟨plain.flat, plain.unburied, plain.noSheet⟩⟩

instance (P : String → Prop) [DecidablePred P] (nodes : List Node) :
    Decidable (EachSelector P nodes) :=
  inferInstanceAs (Decidable (∀ selector ∈ selectorsIn nodes, P selector))

/-! ## The conditions node by node -/

section Descendants

variable {source : Option String} {content : Leaf} {head : Head} {settled : Bool}
  {selector name params : String} {hasBlock : Bool} {children rest : List Node}

theorem forall_descendantsIn_leaf {P : Node → Prop} :
    (∀ node ∈ descendantsIn (.leaf source content :: rest), P node) ↔
      P (.leaf source content) ∧ ∀ node ∈ descendantsIn rest, P node := by
  simp

/-- What holds of all nodes holds of a block, of what is below it, and of what
follows it. -/
theorem forall_descendantsIn_block {P : Node → Prop} :
    (∀ node ∈ descendantsIn (.block source head settled children :: rest), P node) ↔
      P (.block source head settled children) ∧
        (∀ node ∈ descendantsIn children, P node) ∧ ∀ node ∈ descendantsIn rest, P node := by
  simp [or_imp, forall_and]

theorem forall_descendantsIn_append {P : Node → Prop} {left right : List Node} :
    (∀ node ∈ descendantsIn (left ++ right), P node) ↔
      (∀ node ∈ descendantsIn left, P node) ∧ ∀ node ∈ descendantsIn right, P node := by
  simp [or_imp, forall_and]

/-- What holds of all nodes holds of a node with what is below it, and of what
follows it. -/
theorem forall_descendantsIn_cons {P : Node → Prop} {first : Node} :
    (∀ node ∈ descendantsIn (first :: rest), P node) ↔
      (∀ node ∈ descendantsIn [first], P node) ∧ ∀ node ∈ descendantsIn rest, P node := by
  rw [← List.singleton_append, forall_descendantsIn_append]

/-- A list of nodes meets the condition just if all parts that it is joined of do. -/
structure Partwise (condition : List Node → Prop) : Prop where
  nil : condition []
  append : ∀ {left right}, condition (left ++ right) ↔ condition left ∧ condition right

namespace Partwise

variable {condition : List Node → Prop}

theorem flatMap_iff (partwise : Partwise condition) {α : Type} {parts : List α}
    {change : α → List Node} :
    condition (parts.flatMap change) ↔ ∀ part ∈ parts, condition (change part) := by
  induction parts with
  | nil => simpa using partwise.nil
  | cons part rest inductionHypothesis =>
      rw [List.flatMap_cons, partwise.append, inductionHypothesis, List.forall_mem_cons]

theorem iff_forall_mem (partwise : Partwise condition) {nodes : List Node} :
    condition nodes ↔ ∀ node ∈ nodes, condition [node] := by
  rw [← partwise.flatMap_iff, List.flatMap_singleton']

end Partwise

theorem partwise_forall_descendantsIn (P : Node → Prop) :
    Partwise fun nodes => ∀ node ∈ descendantsIn nodes, P node where
  nil := by simp
  append := forall_descendantsIn_append

theorem mem_descendantsIn {node : Node} {nodes : List Node} (member : node ∈ nodes) :
    node ∈ descendantsIn nodes := by
  rcases List.append_of_mem member with ⟨before, after, rfl⟩
  cases node <;> simp

@[simp]
theorem flatRules_leaf : FlatRules (.leaf source content :: rest) ↔ FlatRules rest := by
  simp only [FlatRules, forall_descendantsIn_leaf]
  simp [Node.isRule, Node.selector?]

@[simp]
theorem flatRules_rule :
    FlatRules (.block source (.rule selector) settled children :: rest) ↔
      (∀ child ∈ children, child.isLeaf) ∧ FlatRules children ∧ FlatRules rest := by
  simp only [FlatRules, forall_descendantsIn_block]
  simp [Node.isRule, Node.selector?, Node.children]

@[simp]
theorem flatRules_atRule :
    FlatRules (.block source (.atRule name params hasBlock) settled children :: rest) ↔
      FlatRules children ∧ FlatRules rest := by
  simp only [FlatRules, forall_descendantsIn_block]
  simp [Node.isRule, Node.selector?]

@[simp]
theorem flatRules_sheet :
    FlatRules (.block source .sheet settled children :: rest) ↔
      FlatRules children ∧ FlatRules rest := by
  simp only [FlatRules, forall_descendantsIn_block]
  simp [Node.isRule, Node.selector?]

@[simp]
theorem flatRules_append {left right : List Node} :
    FlatRules (left ++ right) ↔ FlatRules left ∧ FlatRules right := by
  simp only [FlatRules, forall_descendantsIn_append]

theorem flatRules_nil : FlatRules [] := by
  simp [FlatRules]

theorem flatRules_of_leaves {nodes : List Node} (leaves : ∀ node ∈ nodes, node.isLeaf) :
    FlatRules nodes := by
  induction nodes, leaves using leaves_induction with
  | nil => exact flatRules_nil
  | leaf source content rest leaves ofRest => exact flatRules_leaf.mpr ofRest

@[simp]
theorem noMedia_nil : NoMedia [] := by
  simp [NoMedia]

@[simp]
theorem noMedia_leaf : NoMedia (.leaf source content :: rest) ↔ NoMedia rest := by
  simp only [NoMedia, forall_descendantsIn_leaf]
  simp [Node.isMedia, Node.head?]

@[simp]
theorem noMedia_block :
    NoMedia (.block source head settled children :: rest) ↔
      head.isMedia = false ∧ NoMedia children ∧ NoMedia rest := by
  simp only [NoMedia, forall_descendantsIn_block]
  simp [Node.isMedia, Node.head?]

@[simp]
theorem noMedia_append {left right : List Node} :
    NoMedia (left ++ right) ↔ NoMedia left ∧ NoMedia right := by
  simp only [NoMedia, forall_descendantsIn_append]

theorem noMedia_of_leaves {nodes : List Node} (leaves : ∀ node ∈ nodes, node.isLeaf) :
    NoMedia nodes := by
  induction nodes, leaves using leaves_induction with
  | nil => exact noMedia_nil
  | leaf source content rest leaves ofRest => exact noMedia_leaf.mpr ofRest

theorem simple_append {left right : List Node} :
    Simple (left ++ right) ↔ Simple left ∧ Simple right := by
  constructor
  · rintro ⟨flat, noMedia⟩
    rcases flatRules_append.mp flat with ⟨leftFlat, rightFlat⟩
    rcases noMedia_append.mp noMedia with ⟨noneLeft, noneRight⟩
    exact ⟨⟨leftFlat, noneLeft⟩, ⟨rightFlat, noneRight⟩⟩
  · rintro ⟨⟨leftFlat, noneLeft⟩, ⟨rightFlat, noneRight⟩⟩
    exact ⟨flatRules_append.mpr ⟨leftFlat, rightFlat⟩, noMedia_append.mpr ⟨noneLeft, noneRight⟩⟩

theorem simple_nil : Simple [] :=
  ⟨flatRules_nil, noMedia_nil⟩

/-- A rule is simple if its children are leaves. -/
theorem simple_rule :
    Simple (.block source (.rule selector) settled children :: rest) ↔
      (∀ child ∈ children, child.isLeaf) ∧ Simple rest := by
  constructor
  · rintro ⟨flat, noMedia⟩
    rcases flatRules_rule.mp flat with ⟨leaves, -, restFlat⟩
    exact ⟨leaves, restFlat, (noMedia_block.mp noMedia).2.2⟩
  · rintro ⟨leaves, restFlat, restNoMedia⟩
    constructor
    · exact flatRules_rule.mpr ⟨leaves, flatRules_of_leaves leaves, restFlat⟩
    · exact noMedia_block.mpr ⟨rfl, noMedia_of_leaves leaves, restNoMedia⟩

/-- Another block is simple if it is no media block and its children are simple. -/
theorem simple_block (noRule : ∀ selector, head ≠ .rule selector) :
    Simple (.block source head settled children :: rest) ↔
      head.isMedia = false ∧ Simple children ∧ Simple rest := by
  have flatRules_block : FlatRules (.block source head settled children :: rest) ↔
      FlatRules children ∧ FlatRules rest := by
    cases head with
    | sheet => exact flatRules_sheet
    | rule selector => exact absurd rfl (noRule selector)
    | atRule name params hasBlock => exact flatRules_atRule
  constructor
  · rintro ⟨flat, noMedia⟩
    rcases flatRules_block.mp flat with ⟨childrenFlat, restFlat⟩
    rcases noMedia_block.mp noMedia with ⟨notHere, noneBelow, noneLater⟩
    exact ⟨notHere, ⟨childrenFlat, noneBelow⟩, ⟨restFlat, noneLater⟩⟩
  · rintro ⟨notHere, ⟨childrenFlat, noneBelow⟩, ⟨restFlat, noneLater⟩⟩
    constructor
    · exact flatRules_block.mpr ⟨childrenFlat, restFlat⟩
    · exact noMedia_block.mpr ⟨notHere, noneBelow, noneLater⟩

theorem hereditary_simple : Hereditary Simple where
  append := simple_append
  children := by
    intro source head settled children simple
    exact ⟨(forall_descendantsIn_block.mp simple.flat).2.1,
      (forall_descendantsIn_block.mp simple.noMedia).2.1⟩
  block := by
    intro source head settled before after noRule simple ofAfter
    exact (simple_block noRule).mpr ⟨((simple_block noRule).mp simple).1, ofAfter, simple_nil⟩

@[simp]
theorem mediaSettled_leaf : MediaSettled (.leaf source content :: rest) ↔ MediaSettled rest := by
  simp only [MediaSettled, forall_descendantsIn_leaf]
  simp [Node.isMedia, Node.head?]

@[simp]
theorem mediaSettled_block :
    MediaSettled (.block source head settled children :: rest) ↔
      (head.isMedia → settled) ∧ MediaSettled children ∧ MediaSettled rest := by
  simp only [MediaSettled, forall_descendantsIn_block]
  simp [Node.isMedia, Node.head?, Node.isSettled]

@[simp]
theorem mediaSettled_append {left right : List Node} :
    MediaSettled (left ++ right) ↔ MediaSettled left ∧ MediaSettled right := by
  simp only [MediaSettled, forall_descendantsIn_append]

theorem NoMedia.mediaSettled {nodes : List Node} (noMedia : NoMedia nodes) : MediaSettled nodes := by
  intro node member isMedia
  simp [noMedia node member] at isMedia

@[simp]
theorem unmarked_leaf : Unmarked (.leaf source content :: rest) ↔ Unmarked rest := by
  simp only [Unmarked, forall_descendantsIn_leaf]
  simp [Node.isSettled]

@[simp]
theorem unmarked_block :
    Unmarked (.block source head settled children :: rest) ↔
      settled = false ∧ Unmarked children ∧ Unmarked rest := by
  simp only [Unmarked, forall_descendantsIn_block]
  simp [Node.isSettled]

variable {P : String → Prop}

@[simp]
theorem eachSelector_nil : EachSelector P [] := by
  simp [EachSelector, selectorsIn]

@[simp]
theorem eachSelector_append {left right : List Node} :
    EachSelector P (left ++ right) ↔ EachSelector P left ∧ EachSelector P right := by
  simp [EachSelector, selectorsIn, or_imp, forall_and]

theorem eachSelector_cons {node : Node} :
    EachSelector P (node :: rest) ↔ EachSelector P [node] ∧ EachSelector P rest := by
  rw [← List.singleton_append, eachSelector_append]

@[simp]
theorem eachSelector_leaf :
    EachSelector P (.leaf source content :: rest) ↔ EachSelector P rest := by
  simp [EachSelector, selectorsIn, Node.selector?]

@[simp]
theorem eachSelector_rule :
    EachSelector P (.block source (.rule selector) settled children :: rest) ↔
      P selector ∧ EachSelector P children ∧ EachSelector P rest := by
  simp only [EachSelector, selectorsIn, List.mem_filterMap]
  simp [Node.selector?, or_imp, forall_and]

@[simp]
theorem eachSelector_atRule :
    EachSelector P (.block source (.atRule name params hasBlock) settled children :: rest) ↔
      EachSelector P children ∧ EachSelector P rest := by
  simp only [EachSelector, selectorsIn, List.mem_filterMap]
  simp [Node.selector?, or_imp, forall_and]

@[simp]
theorem eachSelector_sheet :
    EachSelector P (.block source .sheet settled children :: rest) ↔
      EachSelector P children ∧ EachSelector P rest := by
  simp only [EachSelector, selectorsIn, List.mem_filterMap]
  simp [Node.selector?, or_imp, forall_and]

theorem EachSelector.imp {Q : String → Prop} {nodes : List Node} (each : EachSelector P nodes)
    (implies : ∀ selector, P selector → Q selector) : EachSelector Q nodes :=
  fun selector member => implies selector (each selector member)

/-- Without guards no rule is scoped to the viewport. -/
theorem viewportFree_of_unguarded {toggle : Toggle} {nodes : List Node}
    (unguarded : Unguarded toggle nodes) : ViewportFree toggle nodes := by
  refine EachSelector.imp unguarded fun selector notGuarded => ?_
  simp only [Toggle.isGuarded, Selector.hasGuard, List.any_cons, Bool.or_eq_false_iff] at notGuarded
  exact notGuarded.1

theorem viewportFree_iff {toggle : Toggle} {nodes : List Node} :
    ViewportFree toggle nodes ↔
      ((selectorsIn nodes).any fun selector => Text.contains selector toggle.viewportGuard) =
        false := by
  simp [EachSelector, List.any_eq_false]

end Descendants

/-! ## Clearing marks -/

theorem descendantsIn_clearMarksIn (nodes : List Node) :
    descendantsIn (clearMarksIn nodes) = (descendantsIn nodes).map Node.clearMarks := by
  induction nodes using forest_induction with
  | nil => rfl
  | leaf source content rest ofRest => simp [clearMarksIn, Node.clearMarks, ofRest]
  | block source head settled children rest ofChildren ofRest =>
      simp [clearMarksIn, Node.clearMarks, ofChildren, ofRest]

@[simp]
theorem selector?_clearMarks (node : Node) : node.clearMarks.selector? = node.selector? := by
  rcases node with _ | ⟨_, _ | _ | _, _, _⟩ <;> rfl

@[simp]
theorem declaration?_clearMarks (node : Node) :
    node.clearMarks.declaration? = node.declaration? := by
  rcases node with ⟨_, _ | _⟩ | _ <;> rfl

@[simp]
theorem head?_clearMarks (node : Node) : node.clearMarks.head? = node.head? := by
  cases node <;> rfl

@[simp]
theorem children_clearMarks (node : Node) :
    node.clearMarks.children = clearMarksIn node.children := by
  cases node <;> rfl

@[simp]
theorem isLeaf_clearMarks (node : Node) : node.clearMarks.isLeaf = node.isLeaf := by
  cases node <;> rfl

@[simp]
theorem isRule_clearMarks (node : Node) : node.clearMarks.isRule = node.isRule := by
  simp [Node.isRule]

@[simp]
theorem isMedia_clearMarks (node : Node) : node.clearMarks.isMedia = node.isMedia := by
  simp [Node.isMedia]

@[simp]
theorem isAtRule_clearMarks (node : Node) : node.clearMarks.isAtRule = node.isAtRule := by
  rcases node with _ | ⟨_, _ | _ | _, _, _⟩ <;> rfl

@[simp]
theorem isContainerBlock_clearMarks (node : Node) :
    node.clearMarks.isContainerBlock = node.isContainerBlock := by
  rcases node with _ | ⟨_, _ | _ | _, _, _⟩ <;> rfl

@[simp]
theorem isSettled_clearMarks (node : Node) : node.clearMarks.isSettled = false := by
  cases node <;> rfl

@[simp]
theorem selectorsIn_clearMarksIn (nodes : List Node) :
    selectorsIn (clearMarksIn nodes) = selectorsIn nodes := by
  rw [selectorsIn, descendantsIn_clearMarksIn, List.filterMap_map]
  exact congrArg (List.filterMap · _) (funext selector?_clearMarks)

@[simp]
theorem declarationsIn_clearMarksIn (nodes : List Node) :
    declarationsIn (clearMarksIn nodes) = declarationsIn nodes := by
  rw [declarationsIn, descendantsIn_clearMarksIn, List.filterMap_map]
  exact congrArg (List.filterMap · _) (funext declaration?_clearMarks)

theorem clearMarksIn_eq_map (nodes : List Node) :
    clearMarksIn nodes = nodes.map Node.clearMarks := by
  induction nodes with
  | nil => rfl
  | cons first rest inductionHypothesis => simp [clearMarksIn, inductionHypothesis]

theorem clearMarksIn_flatMap {α : Type} (parts : List α) (change : α → List Node) :
    clearMarksIn (parts.flatMap change) =
      parts.flatMap fun part => clearMarksIn (change part) := by
  simp only [clearMarksIn_eq_map, List.map_flatMap]

theorem mem_clearMarksIn {node : Node} {nodes : List Node} :
    node ∈ clearMarksIn nodes ↔ ∃ other ∈ nodes, other.clearMarks = node := by
  rw [clearMarksIn_eq_map, List.mem_map]

theorem unmarked_clearMarksIn (nodes : List Node) : Unmarked (clearMarksIn nodes) := by
  simp [Unmarked, descendantsIn_clearMarksIn]

theorem clearMarksIn_of_unmarked {nodes : List Node} (unmarked : Unmarked nodes) :
    clearMarksIn nodes = nodes := by
  induction nodes using forest_induction with
  | nil => rfl
  | leaf source content rest ofRest =>
      simp only [unmarked_leaf] at unmarked
      simp [clearMarksIn, Node.clearMarks, ofRest unmarked]
  | block source head settled children rest ofChildren ofRest =>
      simp only [unmarked_block] at unmarked
      rcases unmarked with ⟨rfl, childrenUnmarked, restUnmarked⟩
      simp [clearMarksIn, Node.clearMarks, ofChildren childrenUnmarked, ofRest restUnmarked]

@[simp]
theorem clearMarksIn_clearMarksIn (nodes : List Node) :
    clearMarksIn (clearMarksIn nodes) = clearMarksIn nodes :=
  clearMarksIn_of_unmarked (unmarked_clearMarksIn nodes)

/-- Leaves have no marks. -/
theorem clearMarksIn_of_leaves {nodes : List Node} (leaves : ∀ node ∈ nodes, node.isLeaf) :
    clearMarksIn nodes = nodes := by
  induction nodes, leaves using leaves_induction with
  | nil => rfl
  | leaf source content rest leaves ofRest => rw [clearMarksIn, ofRest, Node.clearMarks]

@[simp]
theorem flatRules_clearMarksIn {nodes : List Node} :
    FlatRules (clearMarksIn nodes) ↔ FlatRules nodes := by
  simp [FlatRules, descendantsIn_clearMarksIn, mem_clearMarksIn]

@[simp]
theorem noMedia_clearMarksIn {nodes : List Node} :
    NoMedia (clearMarksIn nodes) ↔ NoMedia nodes := by
  simp [NoMedia, descendantsIn_clearMarksIn]

theorem Plain.clearMarksIn {nodes : List Node} (plain : Plain nodes) :
    Plain (clearMarksIn nodes) where
  flat := by simpa using plain.flat
  unburied := by
    have unburied := plain.unburied
    simp only [MediaOutermost] at unburied ⊢
    simpa [descendantsIn_clearMarksIn] using unburied
  noSheet := by simpa [descendantsIn_clearMarksIn] using plain.noSheet

/-- Marking leaves no media block without a mark. -/
theorem mediaSettled_settleMediaIn (nodes : List Node) : MediaSettled (settleMediaIn nodes) := by
  induction nodes using forest_induction with
  | nil => exact noMedia_nil.mediaSettled
  | leaf source content rest ofRest => exact mediaSettled_leaf.mpr ofRest
  | block source head settled children rest ofChildren ofRest =>
      refine mediaSettled_block.mpr ⟨?_, ofChildren, ofRest⟩
      intro isMedia
      simp [isMedia]

@[simp]
theorem clearMarksIn_settleMediaIn (nodes : List Node) :
    clearMarksIn (settleMediaIn nodes) = clearMarksIn nodes := by
  induction nodes using forest_induction with
  | nil => rfl
  | leaf source content rest ofRest =>
      simp [settleMediaIn, Node.settleMedia, clearMarksIn, Node.clearMarks, ofRest]
  | block source head settled children rest ofChildren ofRest =>
      simp [settleMediaIn, Node.settleMedia, clearMarksIn, Node.clearMarks, ofChildren, ofRest]

/-! ## Copies -/

theorem isLeaf_of_mem_copyInto {file : Option String} {nodes : List Node}
    (leaves : ∀ node ∈ nodes, node.isLeaf) : ∀ node ∈ copyInto file nodes, node.isLeaf := by
  induction nodes, leaves using leaves_induction with
  | nil => exact List.forall_mem_nil _
  | leaf source content rest leaves ofRest => exact List.forall_mem_cons.mpr ⟨rfl, ofRest⟩

theorem flatRules_copyInto (file : Option String) {nodes : List Node} (flat : FlatRules nodes) :
    FlatRules (copyInto file nodes) := by
  induction nodes using forest_induction generalizing file with
  | nil => exact flat
  | leaf source content rest ofRest =>
      rw [flatRules_leaf] at flat
      simpa [copyInto, Node.copy, Node.inherit] using ofRest file flat
  | block source head settled children rest ofChildren ofRest =>
      cases head with
      | sheet =>
          rcases flatRules_sheet.mp flat with ⟨childrenFlat, restFlat⟩
          exact flatRules_sheet.mpr ⟨ofChildren source childrenFlat, ofRest file restFlat⟩
      | rule selector =>
          rcases flatRules_rule.mp flat with ⟨leaves, childrenFlat, restFlat⟩
          exact flatRules_rule.mpr
            ⟨isLeaf_of_mem_copyInto leaves, ofChildren source childrenFlat, ofRest file restFlat⟩
      | atRule name params hasBlock =>
          rcases flatRules_atRule.mp flat with ⟨childrenFlat, restFlat⟩
          exact flatRules_atRule.mpr ⟨ofChildren source childrenFlat, ofRest file restFlat⟩

theorem flatRules_copy {node : Node} (flat : FlatRules [node]) : FlatRules [node.copy] := by
  have copied := flatRules_copyInto none flat
  cases node <;> simpa [copyInto, Node.copy, Node.inherit] using copied

theorem unmarked_copyInto (file : Option String) (nodes : List Node) :
    Unmarked (copyInto file nodes) := by
  induction nodes using forest_induction generalizing file with
  | nil => simp [Unmarked, copyInto]
  | leaf source content rest ofRest => simpa [copyInto, Node.copy, Node.inherit] using ofRest file
  | block source head settled children rest ofChildren ofRest =>
      exact unmarked_block.mpr ⟨rfl, ofChildren source, ofRest file⟩

theorem unmarked_copy (node : Node) : Unmarked [node.copy] := by
  have copied := unmarked_copyInto none [node]
  cases node <;> simpa [copyInto, Node.copy, Node.inherit] using copied

theorem noMedia_copyInto (file : Option String) {nodes : List Node} (noMedia : NoMedia nodes) :
    NoMedia (copyInto file nodes) := by
  induction nodes using forest_induction generalizing file with
  | nil => exact noMedia
  | leaf source content rest ofRest =>
      rw [noMedia_leaf] at noMedia
      simpa [copyInto, Node.copy, Node.inherit] using ofRest file noMedia
  | block source head settled children rest ofChildren ofRest =>
      rcases noMedia_block.mp noMedia with ⟨notHere, noneBelow, noneLater⟩
      exact noMedia_block.mpr ⟨notHere, ofChildren source noneBelow, ofRest file noneLater⟩

theorem noMedia_copy {node : Node} (noMedia : NoMedia [node]) : NoMedia [node.copy] := by
  cases node with
  | leaf source content => exact noMedia
  | block source head settled children =>
      rcases noMedia_block.mp noMedia with ⟨notHere, noneBelow, -⟩
      exact noMedia_block.mpr ⟨notHere, noMedia_copyInto source noneBelow, noMedia_nil⟩

theorem simple_copy {node : Node} (simple : Simple [node]) : Simple [node.copy] :=
  ⟨flatRules_copy simple.flat, noMedia_copy simple.noMedia⟩

end ContainerPreview
