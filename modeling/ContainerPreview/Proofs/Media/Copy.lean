import ContainerPreview.Proofs.Sheet.Alike
import ContainerPreview.Transform.MediaCopy
import Mathlib.Data.List.Forall2

/-!
# What copying media blocks amounts to

Copying goes down into a sheet as far as the first media block on every path.  It is described
here by nodes with the heads of the blocks around them: the blocks that are copied are the
media blocks with no media block around them that have a container query, in document order,
and the rules that are guarded are those whose outermost media block is one of these.
-/

namespace ContainerPreview

/-! ## Nodes in their places -/

/-- A node with the heads of the blocks around it, the outermost one first. -/
structure PlacedNode where
  around : List Head
  node : Node

mutual
/-- The node and all nodes below it, in document order, each with the heads around it. -/
def Node.placed (around : List Head) : Node → List PlacedNode
  | .leaf source content => [⟨around, .leaf source content⟩]
  | .block source head settled children =>
      ⟨around, .block source head settled children⟩ :: placedIn (around ++ [head]) children
/-- The nodes and all nodes below them, in document order, each with the heads around it. -/
def placedIn (around : List Head) : List Node → List PlacedNode
  | [] => []
  | node :: nodes => node.placed around ++ placedIn around nodes
end

/-- The nodes in their places are the descendants. -/
theorem map_node_placedIn (around : List Head) (nodes : List Node) :
    (placedIn around nodes).map PlacedNode.node = descendantsIn nodes := by
  induction nodes using forest_induction generalizing around with
  | nil => rfl
  | leaf source content rest ofRest => simp [placedIn, Node.placed, ofRest]
  | block source head settled children rest ofChildren ofRest =>
      simp [placedIn, Node.placed, ofChildren, ofRest]

/-- The blocks around a node in the list are around it in the sheet, too. -/
theorem prefix_around_of_mem_placedIn {around : List Head} {nodes : List Node}
    {placed : PlacedNode} (member : placed ∈ placedIn around nodes) : around <+: placed.around := by
  induction nodes using forest_induction generalizing around with
  | nil => cases member
  | leaf source content rest ofRest =>
      rcases List.mem_cons.mp member with rfl | inRest
      · exact List.prefix_refl around
      · exact ofRest inRest
  | block source head settled children rest ofChildren ofRest =>
      rcases List.mem_cons.mp member with rfl | below
      · exact List.prefix_refl around
      · rcases List.mem_append.mp below with inChildren | inRest
        · exact (List.prefix_append around [head]).trans (ofChildren inChildren)
        · exact ofRest inRest

/-- A media block with no media block around it. -/
def PlacedNode.isOutermostMedia (placed : PlacedNode) : Bool :=
  placed.node.isMedia && !placed.around.any Head.isMedia

/-- The media blocks with no media block around them, among nodes in the given blocks and below
these nodes, in document order. -/
def outermostIn (around : List Head) (nodes : List Node) : List Node :=
  ((placedIn around nodes).filter PlacedNode.isOutermostMedia).map PlacedNode.node

/-- The head with its selector list changed, if it is that of a rule. -/
def Head.mapSelector (change : String → String) : Head → Head
  | .rule selector => .rule (change selector)
  | head => head

theorem Head.mapSelector_id (head : Head) : head.mapSelector id = head := by
  cases head <;> rfl

mutual
/-- The node with the selector list of every rule changed, given the heads around the rule. -/
def Node.changeSelectors (change : List Head → String → String) (around : List Head) : Node → Node
  | .leaf source content => .leaf source content
  | .block source head settled children =>
      .block source (head.mapSelector (change around)) settled
        (changeSelectorsIn change (around ++ [head]) children)
/-- The nodes with the selector list of every rule changed, given the heads around the rule. -/
def changeSelectorsIn (change : List Head → String → String) (around : List Head) :
    List Node → List Node
  | [] => []
  | node :: nodes => node.changeSelectors change around :: changeSelectorsIn change around nodes
end

/-! ## Outermost media blocks -/

section Outermost

variable {around : List Head} {source : Option String} {head : Head} {settled : Bool}
  {children rest : List Node}

theorem outermostIn_of_media (within : around.any Head.isMedia) (nodes : List Node) :
    outermostIn around nodes = [] := by
  refine List.map_eq_nil_iff.mpr (List.filter_eq_nil_iff.mpr fun placed member => ?_)
  obtain ⟨more, isAround⟩ := prefix_around_of_mem_placedIn member
  simp [PlacedNode.isOutermostMedia, ← isAround, within]

theorem outermostIn_block_media (noMedia : around.any Head.isMedia = false)
    (isMedia : head.isMedia) :
    outermostIn around (.block source head settled children :: rest) =
      [.block source head settled children] ++ outermostIn around rest := by
  have within : (around ++ [head]).any Head.isMedia := by simp [isMedia]
  have noneBelow := outermostIn_of_media within children
  rw [outermostIn] at noneBelow
  have isOutermost : PlacedNode.isOutermostMedia ⟨around, .block source head settled children⟩ := by
    simpa [PlacedNode.isOutermostMedia, noMedia, Node.isMedia, Node.head?] using isMedia
  rw [outermostIn, placedIn, Node.placed, List.cons_append, List.filter_cons_of_pos isOutermost,
    List.filter_append, List.map_cons, List.map_append, noneBelow]
  rfl

theorem outermostIn_block_other (notMedia : head.isMedia = false) :
    outermostIn around (.block source head settled children :: rest) =
      outermostIn (around ++ [head]) children ++ outermostIn around rest := by
  have isOther :
      ¬PlacedNode.isOutermostMedia ⟨around, .block source head settled children⟩ = true := by
    simp [PlacedNode.isOutermostMedia, Node.isMedia, Node.head?, notMedia]
  rw [outermostIn, placedIn, Node.placed, List.cons_append, List.filter_cons_of_neg isOther,
    List.filter_append, List.map_append]
  rfl

end Outermost

/-- The first media block on the way to a node stays the first further down. -/
theorem find?_isMedia_append {around : List Head} {media : Head}
    (isFirst : around.find? Head.isMedia = some media) (more : List Head) :
    (around ++ more).find? Head.isMedia = some media := by
  rw [List.find?_append, isFirst, Option.some_or]

namespace MediaCopy

/-! ## What is copied and what is guarded -/

/-- The container query of a block, if it is a media block for which there is one. -/
def query? (transform : MediaCopy) : Head → Option String
  | .atRule "media" params _ => (Media.translate transform.hook params).value
  | _ => none

/-- A media block for which there is a container query. -/
def isCopied (transform : MediaCopy) (node : Node) : Bool :=
  (node.head?.bind transform.query?).isSome

/-- The selector list of a rule afterwards, given the heads around the rule: every selector is
guarded if the outermost media block is one that is copied. -/
def selectorsWithin (transform : MediaCopy) (around : List Head) (selector : String) : String :=
  if ((around.find? Head.isMedia).bind transform.query?).isSome then
    guardList transform.guard selector
  else selector

/-- A container block for a media block: it has the container query for parameters, and the
children are those of the media block, but for the files that they come from. -/
inductive IsContainerFor (transform : MediaCopy) : Node → Node → Prop
  | mk {file file' : Option String} {params query : String} {hasBlock settled : Bool}
      {children copies : List Node} (isQuery : transform.query? (.atRule "media" params hasBlock) = some query)
      (same : SameText copies (clearMarksIn children)) :
      IsContainerFor transform (.block file (.atRule "media" params hasBlock) settled children)
        (.block file' (.atRule "container" query hasBlock) false copies)

variable (transform : MediaCopy)

theorem IsContainerFor.inherit {transform : MediaCopy} {media container : Node}
    (isContainer : transform.IsContainerFor media container) (file : Option String) :
    transform.IsContainerFor media (container.inherit file) := by
  cases isContainer with
  | mk isQuery same => exact .mk isQuery same

/-- Copied nodes are the same but for marks and files. -/
theorem sameText_copyInto (file : Option String) (nodes : List Node) :
    SameText (copyInto file nodes) (clearMarksIn nodes) := by
  induction nodes using forest_induction generalizing file with
  | nil => exact .nil
  | leaf source content rest ofRest => exact .leaf (ofRest file)
  | block source head settled children rest ofChildren ofRest =>
      exact .block (fun _ _ => trivial) (ofChildren source) (ofRest file)

/-! ## One block -/

theorem exists_media_of_isMedia {head : Head} (isMedia : head.isMedia) :
    ∃ params hasBlock, head = .atRule "media" params hasBlock := by
  cases head with
  | atRule name params hasBlock =>
      obtain rfl : name = "media" := by simpa [Head.isMedia] using isMedia
      exact ⟨params, hasBlock, rfl⟩
  | _ => cases isMedia

theorem value_copyNode_media (source : Option String) (params : String) (hasBlock settled : Bool)
    (children : List Node) :
    (copyNode transform (.block source (.atRule "media" params hasBlock) settled children)).value =
      match transform.query? (.atRule "media" params hasBlock) with
      | none =>
          { nodes := [.block source (.atRule "media" params hasBlock) settled children],
            containers := [] }
      | some query =>
          { nodes := [guardNode transform.guard
              (.block source (.atRule "media" params hasBlock) settled children)],
            containers := [.block source (.atRule "container" query hasBlock) false
              (copyInto source children)] } := by
  simp only [copyNode, Traced.value_bind, query?]
  cases (Media.translate transform.hook params).value <;> rfl

theorem value_copyNode_other {head : Head} (notMedia : head.isMedia = false)
    (source : Option String) (settled : Bool) (children : List Node) :
    (copyNode transform (.block source head settled children)).value =
      { nodes := [.block source head settled (copyNodes transform children).value.nodes],
        containers := (copyNodes transform children).value.containers } := by
  unfold copyNode
  split
  · cases notMedia
  · rfl

/-! ## Below a media block -/

theorem guardNode_block (guard : String) (source : Option String) (head : Head) (settled : Bool)
    (children : List Node) :
    guardNode guard (.block source head settled children) =
      .block source (head.mapSelector (guardList guard)) settled (guardNodes guard children) := by
  cases head <;> rfl

/-- Below a media block that is copied every rule is guarded. -/
theorem changeSelectorsIn_of_copied {around : List Head} {media : Head}
    (isFirst : around.find? Head.isMedia = some media) (copied : (transform.query? media).isSome)
    (nodes : List Node) :
    changeSelectorsIn transform.selectorsWithin around nodes =
      guardNodes transform.guard nodes := by
  induction nodes using forest_induction generalizing around with
  | nil => rfl
  | leaf source content rest ofRest =>
      rw [changeSelectorsIn, guardNodes, ofRest isFirst]
      rfl
  | block source head settled children rest ofChildren ofRest =>
      have guarded : transform.selectorsWithin around = guardList transform.guard := by
        funext selector
        rw [selectorsWithin, isFirst, Option.bind_some, if_pos copied]
      rw [changeSelectorsIn, guardNodes, ofRest isFirst, Node.changeSelectors, guardNode_block,
        ofChildren (find?_isMedia_append isFirst [head]), guarded]

/-- Below a media block that is not copied nothing changes, and neither does it where there is
nothing to copy. -/
theorem changeSelectorsIn_of_not_copied {around : List Head} {media : Head}
    (isFirst : around.find? Head.isMedia = some media) (notCopied : transform.query? media = none)
    (nodes : List Node) : changeSelectorsIn transform.selectorsWithin around nodes = nodes := by
  induction nodes using forest_induction generalizing around with
  | nil => rfl
  | leaf source content rest ofRest =>
      rw [changeSelectorsIn, ofRest isFirst]
      rfl
  | block source head settled children rest ofChildren ofRest =>
      have kept : transform.selectorsWithin around = id := by
        funext selector
        rw [selectorsWithin, isFirst, Option.bind_some, notCopied]
        rfl
      rw [changeSelectorsIn, ofRest isFirst, Node.changeSelectors,
        ofChildren (find?_isMedia_append isFirst [head]), kept, Head.mapSelector_id]

/-! ## The whole sheet -/

theorem find?_isMedia_eq_none {around : List Head} (noMedia : around.any Head.isMedia = false) :
    around.find? Head.isMedia = none := by
  rw [List.find?_eq_none]
  exact fun head member => by simpa using List.any_eq_false.mp noMedia head member

theorem selectorsWithin_of_noMedia {around : List Head}
    (noMedia : around.any Head.isMedia = false) : transform.selectorsWithin around = id := by
  funext selector
  rw [selectorsWithin, find?_isMedia_eq_none noMedia]
  rfl

/-- A media block that is in no other stays as it is or has its rules guarded and a container
block made for it. -/
theorem copyNode_media {around : List Head} (noMedia : around.any Head.isMedia = false)
    (source : Option String) (params : String) (hasBlock settled : Bool) (children : List Node) :
    (copyNode transform (.block source (.atRule "media" params hasBlock) settled children)).value.nodes =
        [.block source (.atRule "media" params hasBlock) settled
          (changeSelectorsIn transform.selectorsWithin
            (around ++ [.atRule "media" params hasBlock]) children)] ∧
      List.Forall₂ transform.IsContainerFor
        ([.block source (.atRule "media" params hasBlock) settled children].filter
          transform.isCopied)
        (copyNode transform
          (.block source (.atRule "media" params hasBlock) settled children)).value.containers := by
  have isFirst : (around ++ [Head.atRule "media" params hasBlock]).find? Head.isMedia =
      some (.atRule "media" params hasBlock) := by
    rw [List.find?_append, find?_isMedia_eq_none noMedia]
    rfl
  have isCopied : transform.isCopied
      (.block source (.atRule "media" params hasBlock) settled children) =
        (transform.query? (.atRule "media" params hasBlock)).isSome := rfl
  rw [value_copyNode_media]
  cases isQuery : transform.query? (.atRule "media" params hasBlock) with
  | none =>
      rw [isQuery] at isCopied
      rw [changeSelectorsIn_of_not_copied transform isFirst isQuery,
        List.filter_cons_of_neg (by simp [isCopied])]
      exact ⟨rfl, .nil⟩
  | some query =>
      rw [isQuery] at isCopied
      rw [changeSelectorsIn_of_copied transform isFirst (by rw [isQuery]; rfl),
        List.filter_cons_of_pos (by simp [isCopied])]
      exact ⟨rfl, .cons (.mk isQuery (sameText_copyInto source children)) .nil⟩

/-- In blocks that are no media blocks, copying guards the rules of the outermost media blocks
that have a container query and makes a container block for each of them. -/
theorem copyNodes_describes {around : List Head} (noMedia : around.any Head.isMedia = false)
    (nodes : List Node) :
    (copyNodes transform nodes).value.nodes =
        changeSelectorsIn transform.selectorsWithin around nodes ∧
      List.Forall₂ transform.IsContainerFor
        ((outermostIn around nodes).filter transform.isCopied)
        (copyNodes transform nodes).value.containers := by
  induction nodes using forest_induction generalizing around with
  | nil => exact ⟨rfl, .nil⟩
  | leaf source content rest ofRest =>
      obtain ⟨sameRest, copiedRest⟩ := ofRest noMedia
      refine ⟨?_, copiedRest⟩
      rw [changeSelectorsIn, ← sameRest]
      rfl
  | block source head settled children rest ofChildren ofRest =>
      obtain ⟨sameRest, copiedRest⟩ := ofRest noMedia
      rw [copyNodes, Traced.value_bind, Traced.value_bind, Traced.value_pure, sameRest,
        changeSelectorsIn, Node.changeSelectors, selectorsWithin_of_noMedia transform noMedia,
        Head.mapSelector_id]
      cases isMedia : head.isMedia with
      | true =>
          obtain ⟨params, hasBlock, rfl⟩ := exists_media_of_isMedia isMedia
          obtain ⟨same, copied⟩ :=
            copyNode_media transform noMedia source params hasBlock settled children
          refine ⟨by rw [same]; rfl, ?_⟩
          rw [outermostIn_block_media noMedia isMedia, List.filter_append]
          exact List.rel_append copied copiedRest
      | false =>
          have noMediaInside : (around ++ [head]).any Head.isMedia = false := by
            simp [noMedia, isMedia]
          obtain ⟨same, copied⟩ := ofChildren noMediaInside
          rw [value_copyNode_other transform isMedia, same, outermostIn_block_other isMedia,
            List.filter_append]
          exact ⟨rfl, List.rel_append copied copiedRest⟩

end MediaCopy

end ContainerPreview
