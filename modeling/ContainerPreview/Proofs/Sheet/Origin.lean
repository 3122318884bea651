import ContainerPreview.Proofs.Sheet.Shape

/-!
# Where the nodes of a sheet come from

A transform of a sheet makes up neither files nor rows of keyframe selectors.  This is
stated by an `Origin`: the files that nodes may come from, and the rows of selector lists
that rules directly in keyframes may have.  What an origin admits stays admitted where
nodes are copied, put into another block, or made into those of a container variant.
-/

namespace ContainerPreview

/-- The selector lists of the rules among the nodes, not of those below them. -/
def ownSelectors (nodes : List Node) : List String :=
  nodes.filterMap Node.selector?

/-- The node is an at-rule that holds keyframes. -/
def Node.isKeyframes (node : Node) : Bool :=
  node.head?.any Head.isKeyframes

/-- The files that nodes may come from, and the rows of selector lists that there may be
directly in keyframes.  A node need not name a file. -/
structure Origin where
  file : Option String → Prop
  noFile : file none
  frames : List String → Prop

namespace Origin

/-- The node comes from a file of the origin, and so do its rules if it holds keyframes. -/
structure Admits (origin : Origin) (node : Node) : Prop where
  file : origin.file node.source
  frames : node.isKeyframes → origin.frames (ownSelectors node.children)

/-- The origin admits all of the nodes and all nodes below them. -/
def AdmitsAll (origin : Origin) (nodes : List Node) : Prop :=
  ∀ node ∈ descendantsIn nodes, origin.Admits node

end Origin

/-! ## Selector lists directly in a block -/

@[simp]
theorem ownSelectors_nil : ownSelectors [] = [] :=
  rfl

@[simp]
theorem ownSelectors_leaf (source : Option String) (content : Leaf) (rest : List Node) :
    ownSelectors (.leaf source content :: rest) = ownSelectors rest :=
  rfl

@[simp]
theorem ownSelectors_rule (source : Option String) (selector : String) (settled : Bool)
    (children rest : List Node) :
    ownSelectors (.block source (.rule selector) settled children :: rest) =
      selector :: ownSelectors rest :=
  rfl

@[simp]
theorem ownSelectors_append (left right : List Node) :
    ownSelectors (left ++ right) = ownSelectors left ++ ownSelectors right := by
  simp [ownSelectors]

/-- The head of a block tells what it adds to the selector lists. -/
theorem ownSelectors_block (source source' : Option String) (head : Head)
    (settled settled' : Bool) (children children' rest : List Node) :
    ownSelectors (.block source head settled children :: rest) =
      ownSelectors (.block source' head settled' children' :: rest) := by
  cases head <;> rfl

@[simp]
theorem ownSelectors_sheet (source : Option String) (settled : Bool) (children rest : List Node) :
    ownSelectors (.block source .sheet settled children :: rest) = ownSelectors rest :=
  rfl

@[simp]
theorem ownSelectors_atRule (source : Option String) (name params : String)
    (hasBlock settled : Bool) (children rest : List Node) :
    ownSelectors (.block source (.atRule name params hasBlock) settled children :: rest) =
      ownSelectors rest :=
  rfl

/-- Container blocks are no rules. -/
theorem ownSelectors_of_isContainerBlock {nodes : List Node}
    (areContainers : ∀ node ∈ nodes, node.isContainerBlock) : ownSelectors nodes = [] := by
  refine List.filterMap_eq_nil_iff.mpr fun node member => ?_
  have isContainer := areContainers node member
  rcases node with _ | ⟨_, _ | _ | _, _, _⟩
  · rfl
  · rfl
  · cases isContainer
  · rfl

@[simp]
theorem selector?_inherit (file : Option String) (node : Node) :
    (node.inherit file).selector? = node.selector? := by
  rcases node with _ | ⟨_, _ | _ | _, _, _⟩ <;> rfl

@[simp]
theorem selector?_copy (node : Node) : node.copy.selector? = node.selector? := by
  rcases node with _ | ⟨_, _ | _ | _, _, _⟩ <;> rfl

theorem ownSelectors_copyInto (file : Option String) (nodes : List Node) :
    ownSelectors (copyInto file nodes) = ownSelectors nodes := by
  induction nodes with
  | nil => rfl
  | cons node rest inductionHypothesis =>
      rw [copyInto, ownSelectors, List.filterMap_cons, selector?_inherit, selector?_copy,
        ← ownSelectors, inductionHypothesis]
      rfl

theorem ownSelectors_clearMarksIn (nodes : List Node) :
    ownSelectors (clearMarksIn nodes) = ownSelectors nodes := by
  rw [ownSelectors, clearMarksIn_eq_map, List.filterMap_map]
  exact congrArg (List.filterMap · _) (funext selector?_clearMarks)

/-- The nodes of a variant have the rules of the rule that it is made of. -/
theorem ownSelectors_nodesVariant (converter : Converter) (fixed : Bool) (file : Option String)
    (nodes : List Node) :
    ownSelectors (nodesVariant converter fixed file nodes).value.nodes = ownSelectors nodes := by
  induction nodes with
  | nil => rfl
  | cons node rest inductionHypothesis =>
      rw [nodesVariant, Traced.value_bind, Traced.value_bind, Traced.value_pure, Variant.append,
        ownSelectors_append, inductionHypothesis]
      cases node with
      | leaf source content =>
          cases content with
          | comment text => rfl
          | declaration declaration =>
              simp only [nodeVariant, declarationVariant]
              split
              · rfl
              · split <;> rfl
      | block source head settled children =>
          rw [nodeVariant, Traced.value_bind, Traced.value_pure, ← ownSelectors_append,
            List.singleton_append, ownSelectors_block source source head settled settled _ children]

namespace Origin

variable {origin : Origin} {source : Option String} {content : Leaf} {head : Head}
  {settled : Bool} {children rest : List Node}

theorem file_or {file : Option String} (ofSource : origin.file source)
    (ofFile : origin.file file) : origin.file (source.or file) := by
  cases source with
  | none => exact ofFile
  | some path => exact ofSource

theorem admits_leaf_iff : origin.Admits (.leaf source content) ↔ origin.file source :=
  ⟨Admits.file, fun ofFile => ⟨ofFile, fun isKeyframes => by cases isKeyframes⟩⟩

theorem admits_block_iff :
    origin.Admits (.block source head settled children) ↔
      origin.file source ∧ (head.isKeyframes → origin.frames (ownSelectors children)) := by
  have isHead : (Node.block source head settled children).isKeyframes = head.isKeyframes := rfl
  constructor
  · rintro ⟨ofFile, ofFrames⟩
    exact ⟨ofFile, fun isKeyframes => ofFrames (isHead.trans isKeyframes)⟩
  · rintro ⟨ofFile, ofFrames⟩
    exact ⟨ofFile, fun isKeyframes => ofFrames (isHead.symm.trans isKeyframes)⟩

@[simp]
theorem admitsAll_nil : origin.AdmitsAll [] := by
  simp [AdmitsAll]

theorem admitsAll_leaf_iff :
    origin.AdmitsAll (.leaf source content :: rest) ↔
      origin.file source ∧ origin.AdmitsAll rest := by
  rw [AdmitsAll, forall_descendantsIn_leaf, admits_leaf_iff]
  rfl

theorem admitsAll_block_iff :
    origin.AdmitsAll (.block source head settled children :: rest) ↔
      (origin.file source ∧ (head.isKeyframes → origin.frames (ownSelectors children))) ∧
        origin.AdmitsAll children ∧ origin.AdmitsAll rest := by
  rw [AdmitsAll, forall_descendantsIn_block, admits_block_iff]
  rfl

theorem admitsAll_append_iff {left right : List Node} :
    origin.AdmitsAll (left ++ right) ↔ origin.AdmitsAll left ∧ origin.AdmitsAll right :=
  forall_descendantsIn_append

theorem admitsAll_cons_iff {node : Node} :
    origin.AdmitsAll (node :: rest) ↔ origin.AdmitsAll [node] ∧ origin.AdmitsAll rest :=
  forall_descendantsIn_cons

theorem admitsAll_leaf (ofFile : origin.file source) : origin.AdmitsAll [.leaf source content] :=
  admitsAll_leaf_iff.mpr ⟨ofFile, admitsAll_nil⟩

theorem admitsAll_block (ofFile : origin.file source)
    (ofFrames : head.isKeyframes → origin.frames (ownSelectors children))
    (ofChildren : origin.AdmitsAll children) :
    origin.AdmitsAll [.block source head settled children] :=
  admitsAll_block_iff.mpr ⟨⟨ofFile, ofFrames⟩, ofChildren, admitsAll_nil⟩

/-- A block that holds no keyframes, with admitted children. -/
theorem admitsAll_noFrames (ofFile : origin.file source) (noFrames : head.isKeyframes = false)
    (ofChildren : origin.AdmitsAll children) :
    origin.AdmitsAll [.block source head settled children] :=
  admitsAll_block ofFile (fun isKeyframes => by simp [noFrames] at isKeyframes) ofChildren

theorem partwise_admitsAll (origin : Origin) : Partwise origin.AdmitsAll :=
  partwise_forall_descendantsIn origin.Admits

/-- Of admitted nodes each is admitted with what is below it. -/
theorem AdmitsAll.of_mem {nodes : List Node} (admitsAll : origin.AdmitsAll nodes) {node : Node}
    (member : node ∈ nodes) : origin.AdmitsAll [node] :=
  (partwise_admitsAll origin).iff_forall_mem.mp admitsAll node member

/-! ## Copies and marks -/

theorem AdmitsAll.inherit {node : Node} (admitsAll : origin.AdmitsAll [node])
    {file : Option String} (ofFile : origin.file file) :
    origin.AdmitsAll [node.inherit file] := by
  cases node with
  | leaf source content =>
      exact admitsAll_leaf (file_or (admitsAll_leaf_iff.mp admitsAll).1 ofFile)
  | block source head settled children =>
      obtain ⟨⟨ofSource, ofFrames⟩, ofChildren, -⟩ := admitsAll_block_iff.mp admitsAll
      exact admitsAll_block (file_or ofSource ofFile) ofFrames ofChildren

theorem AdmitsAll.map_inherit {nodes : List Node} (admitsAll : origin.AdmitsAll nodes)
    {file : Option String} (ofFile : origin.file file) :
    origin.AdmitsAll (nodes.map (Node.inherit file)) := by
  rw [(partwise_admitsAll origin).iff_forall_mem, List.forall_mem_map]
  exact fun node member => (admitsAll.of_mem member).inherit ofFile

theorem AdmitsAll.copyInto {nodes : List Node} (admitsAll : origin.AdmitsAll nodes)
    {file : Option String} (ofFile : origin.file file) :
    origin.AdmitsAll (copyInto file nodes) := by
  induction nodes using forest_induction generalizing file with
  | nil => exact admitsAll
  | leaf source content rest ofRest =>
      rw [admitsAll_leaf_iff] at admitsAll
      exact admitsAll_leaf_iff.mpr
        ⟨file_or admitsAll.1 ofFile, ofRest admitsAll.2 ofFile⟩
  | block source head settled children rest ofChildren ofRest =>
      obtain ⟨⟨ofSource, ofFrames⟩, childrenAdmitted, restAdmitted⟩ :=
        admitsAll_block_iff.mp admitsAll
      rw [← ownSelectors_copyInto source children] at ofFrames
      exact admitsAll_block_iff.mpr ⟨⟨file_or ofSource ofFile, ofFrames⟩,
        ofChildren childrenAdmitted ofSource, ofRest restAdmitted ofFile⟩

theorem AdmitsAll.copy {node : Node} (admitsAll : origin.AdmitsAll [node]) :
    origin.AdmitsAll [node.copy] := by
  have copied := admitsAll.copyInto origin.noFile
  cases node <;> simpa [ContainerPreview.copyInto, Node.copy, Node.inherit] using copied

theorem admitsAll_clearMarksIn_iff {nodes : List Node} :
    origin.AdmitsAll (clearMarksIn nodes) ↔ origin.AdmitsAll nodes := by
  induction nodes using forest_induction with
  | nil => rfl
  | leaf source content rest ofRest =>
      rw [clearMarksIn, Node.clearMarks, admitsAll_leaf_iff, admitsAll_leaf_iff, ofRest]
  | block source head settled children rest ofChildren ofRest =>
      rw [clearMarksIn, Node.clearMarks, admitsAll_block_iff, admitsAll_block_iff, ofChildren,
        ofRest, ownSelectors_clearMarksIn]

/-! ## Variants -/

theorem admitsAll_declarationVariant (converter : Converter) (fixed : Bool)
    {file : Option String} (declaration : Declaration) (ofSource : origin.file source)
    (ofFile : origin.file file) :
    origin.AdmitsAll
      (declarationVariant converter fixed file source declaration).value.nodes := by
  unfold declarationVariant
  split
  · exact admitsAll_leaf ofSource
  · split
    · exact admitsAll_leaf_iff.mpr ⟨file_or ofSource ofFile, admitsAll_leaf ofSource⟩
    · exact admitsAll_leaf ofSource

theorem AdmitsAll.nodesVariant (converter : Converter) (fixed : Bool) {nodes : List Node}
    (admitsAll : origin.AdmitsAll nodes) {file : Option String} (ofFile : origin.file file) :
    origin.AdmitsAll (nodesVariant converter fixed file nodes).value.nodes := by
  induction nodes using forest_induction generalizing file with
  | nil => exact admitsAll
  | leaf source content rest ofRest =>
      obtain ⟨ofSource, restAdmitted⟩ := admitsAll_leaf_iff.mp admitsAll
      refine admitsAll_append_iff.mpr ⟨?_, ofRest restAdmitted ofFile⟩
      cases content with
      | declaration declaration =>
          exact admitsAll_declarationVariant converter fixed declaration ofSource ofFile
      | comment text => exact admitsAll_leaf ofSource
  | block source head settled children rest ofChildren ofRest =>
      obtain ⟨⟨ofSource, ofFrames⟩, childrenAdmitted, restAdmitted⟩ :=
        admitsAll_block_iff.mp admitsAll
      rw [← ownSelectors_nodesVariant converter fixed source children] at ofFrames
      exact admitsAll_append_iff.mpr
        ⟨admitsAll_block ofSource ofFrames (ofChildren childrenAdmitted ofSource),
          ofRest restAdmitted ofFile⟩

end Origin

end ContainerPreview
