import ContainerPreview.Proofs.Sheet.Shape
import ContainerPreview.Transform.Declarations

/-!
# Processing declarations in stages and at once

The declarations of a variant can be made in stages, each of which goes over all declarations:
fixed positions become sticky, then the offsets from one edge after the other go behind
variables, and then units are converted except where a stage before has been.  Processing does
all of this for one declaration after the other.  Both come to the same, at any depth, and for a
rule that holds only declarations and comments the outcome is written out declaration by
declaration.
-/

namespace ContainerPreview

/-! ## Stages -/

/-- What a stage makes of a declaration, given the file of the block around it and its own. -/
abbrev Rewrite :=
  Option String → Option String → Declaration → Traced Variant

mutual
/-- What a stage makes of a node. -/
def Node.rewrite (rewrite : Rewrite) (file : Option String) : Node → Traced Variant
  | .leaf source (.declaration declaration) => rewrite file source declaration
  | .leaf source (.comment text) => pure (.ofNode (.leaf source (.comment text)))
  | .block source head settled children => do
      let inner ← rewriteIn rewrite source children
      return { nodes := [.block source head settled inner.nodes], converted := inner.converted }
/-- What a stage makes of nodes: every declaration at any depth is rewritten. -/
def rewriteIn (rewrite : Rewrite) (file : Option String) : List Node → Traced Variant
  | [] => pure { nodes := [], converted := 0 }
  | node :: nodes => do
      let first ← node.rewrite rewrite file
      let others ← rewriteIn rewrite file nodes
      return first.append others
end

/-- A stage that puts nodes in the place of a declaration and converts nothing. -/
def Rewrite.silent (nodes : Option String → Option String → Declaration → List Node) : Rewrite :=
  fun file source declaration => pure { nodes := nodes file source declaration, converted := 0 }

/-- Fixed positions become sticky. -/
def stickyStage : Rewrite :=
  .silent fun _ source declaration =>
    [.leaf source (.declaration
      (if declaration.isPosition then declaration.makeSticky else declaration))]

/-- Offsets from one edge go behind their variable, which is declared in front of them. -/
def offsetStage (edge : String) : Rewrite :=
  .silent fun file source declaration =>
    if declaration.property == edge then
      [.leaf (source.or file) (.declaration declaration.variableDeclaration),
        .leaf source (.declaration declaration.referToVariable)]
    else [.leaf source (.declaration declaration)]

/-- Units are converted except in the values of some properties. -/
def unitStage (converter : Converter) (skipped : List String) : Rewrite :=
  fun _ source declaration =>
    if skipped.contains declaration.property then
      pure (.ofNode (.leaf source (.declaration declaration)))
    else convertedLeaf converter source declaration

/-- The nodes after the stages for the given edges. -/
def hideOffsets (edges : List String) (file : Option String) (nodes : List Node) : List Node :=
  edges.foldl (fun nodes edge => (rewriteIn (offsetStage edge) file nodes).value.nodes) nodes

/-- The nodes after the stages for a rule with a fixed position. -/
def placedInStages (file : Option String) (children : List Node) : List Node :=
  hideOffsets edges file (rewriteIn stickyStage file children).value.nodes

/-- The children of a block processed in stages. -/
def processInStages (converter : Converter) (file : Option String) (children : List Node) :
    Traced Processing := do
  let fixed := hasFixedPosition children
  let placed := if fixed then placedInStages file children else children
  let skipped := if fixed then "position" :: edges else []
  let variant ← rewriteIn (unitStage converter skipped) file placed
  return { children := variant.nodes, fixed, converted := variant.converted }

/-! ## Stages one after the other -/

namespace Variant

theorem append_assoc (first second third : Variant) :
    (first.append second).append third = first.append (second.append third) := by
  simp [append, Nat.add_assoc]

theorem append_none (variant : Variant) : variant.append { nodes := [], converted := 0 } = variant := by
  simp [append]

theorem none_append (variant : Variant) :
    Variant.append { nodes := [], converted := 0 } variant = variant := by
  simp [append]

end Variant

section Stages

variable {rewrite : Rewrite} {file source : Option String}

theorem rewriteIn_append (left right : List Node) :
    rewriteIn rewrite file (left ++ right) = do
      let first ← rewriteIn rewrite file left
      let others ← rewriteIn rewrite file right
      return first.append others := by
  induction left with
  | nil => simp only [List.nil_append, rewriteIn, pure_bind, Variant.none_append, bind_pure]
  | cons node nodes inductionHypothesis =>
      simp only [List.cons_append, rewriteIn, inductionHypothesis, bind_assoc, pure_bind,
        Variant.append_assoc]

theorem rewriteIn_leaf (declaration : Declaration) (nodes : List Node) :
    rewriteIn rewrite file (.leaf source (.declaration declaration) :: nodes) = do
      let first ← rewrite file source declaration
      let others ← rewriteIn rewrite file nodes
      return first.append others :=
  rfl

theorem rewriteIn_singleton (declaration : Declaration) :
    rewriteIn rewrite file [.leaf source (.declaration declaration)] =
      rewrite file source declaration := by
  simp [rewriteIn, Node.rewrite, Variant.append_none]

/-- A stage after a silent one rewrites what that one puts in the place of a declaration. -/
theorem rewriteIn_silent (nodes : Option String → Option String → Declaration → List Node)
    (file : Option String) (children : List Node) :
    rewriteIn rewrite file (rewriteIn (.silent nodes) file children).value.nodes =
      rewriteIn (fun file source declaration =>
        rewriteIn rewrite file (nodes file source declaration)) file children := by
  induction children using forest_induction generalizing file with
  | nil => rfl
  | leaf source content rest ofRest =>
      cases content with
      | declaration declaration =>
          rw [rewriteIn_leaf, rewriteIn_leaf, ← ofRest, ← rewriteIn_append]
          rfl
      | comment text =>
          rw [rewriteIn, rewriteIn, ← ofRest, Traced.value_bind, Traced.value_bind,
            Traced.value_pure]
          rfl
  | block source head settled children rest ofChildren ofRest =>
      rw [rewriteIn, rewriteIn, ← ofRest, Node.rewrite, Node.rewrite, ← ofChildren,
        Traced.value_bind, Traced.value_bind, Traced.value_pure, Traced.value_bind,
        Traced.value_pure, Variant.append, List.singleton_append, rewriteIn, Node.rewrite]

/-- Processing children at once is a stage by itself. -/
theorem nodesVariant_eq_rewriteIn (converter : Converter) (fixed : Bool) (file : Option String)
    (children : List Node) :
    nodesVariant converter fixed file children =
      rewriteIn (declarationVariant converter fixed) file children := by
  induction children using forest_induction generalizing file with
  | nil => rfl
  | leaf source content rest ofRest =>
      rw [nodesVariant, rewriteIn, ofRest]
      cases content <;> rfl
  | block source head settled children rest ofChildren ofRest =>
      rw [nodesVariant, rewriteIn, ofRest, nodeVariant, Node.rewrite, ofChildren]

/-- A stage after those for some edges rewrites what these put in the place of a declaration. -/
theorem rewriteIn_hideOffsets (edges : List String) (file : Option String) (nodes : List Node) :
    rewriteIn rewrite file (hideOffsets edges file nodes) =
      rewriteIn (fun file source declaration =>
        rewriteIn rewrite file (hideOffsets edges file [.leaf source (.declaration declaration)]))
        file nodes := by
  induction edges generalizing file nodes with
  | nil => simp only [hideOffsets, List.foldl_nil, rewriteIn_singleton]
  | cons edge edges inductionHypothesis =>
      have ofEdge : ∀ file nodes, hideOffsets (edge :: edges) file nodes =
          hideOffsets edges file (rewriteIn (offsetStage edge) file nodes).value.nodes :=
        fun _ _ => rfl
      simp only [ofEdge, rewriteIn_singleton]
      rw [inductionHypothesis, offsetStage, rewriteIn_silent]
      simp only [← inductionHypothesis]
      rfl

/-- The stages for all edges put an offset behind its variable and keep other declarations. -/
theorem hideOffsets_edges (file source : Option String) (declaration : Declaration) :
    hideOffsets edges file [.leaf source (.declaration declaration)] =
      if declaration.isOffset then
        [.leaf (source.or file) (.declaration declaration.variableDeclaration),
          .leaf source (.declaration declaration.referToVariable)]
      else [.leaf source (.declaration declaration)] := by
  obtain ⟨property, value, important⟩ := declaration
  have stage : ∀ edge source (declaration : Declaration) nodes,
      (rewriteIn (offsetStage edge) file (.leaf source (.declaration declaration) :: nodes)).value.nodes =
        (if declaration.property == edge then
          [.leaf (source.or file) (.declaration declaration.variableDeclaration),
            .leaf source (.declaration declaration.referToVariable)]
        else [.leaf source (.declaration declaration)]) ++
          (rewriteIn (offsetStage edge) file nodes).value.nodes := fun _ _ _ _ => rfl
  have stageNil : ∀ edge, (rewriteIn (offsetStage edge) file []).value.nodes = [] := fun _ => rfl
  cases isOffset : Declaration.isOffset ⟨property, value, important⟩ with
  | true =>
      have isEdge : property = "top" ∨ property = "right" ∨ property = "bottom" ∨
          property = "left" := by
        simpa [Declaration.isOffset] using isOffset
      rcases isEdge with rfl | rfl | rfl | rfl <;>
        simp [hideOffsets, edges, stage, stageNil, Declaration.variableDeclaration,
          Declaration.referToVariable, Declaration.variableName]
  | false =>
      have notEdge : ¬(property = "top" ∨ property = "right" ∨ property = "bottom" ∨
          property = "left") := by
        simpa [Declaration.isOffset] using isOffset
      simp only [not_or] at notEdge
      simp [hideOffsets, edges, stage, stageNil, notEdge]

end Stages

/-! ## Processing in stages and at once -/

/-- The properties that the unit stage leaves alone in a rule with a fixed position. -/
theorem skipped_iff (declaration : Declaration) :
    ("position" :: edges).contains declaration.property =
      (declaration.isPosition || declaration.isOffset) := by
  rw [List.contains_cons, Declaration.isPosition, Declaration.isOffset, edges]

/-- What the stages for a rule with a fixed position make of one declaration. -/
theorem rewriteIn_stages (converter : Converter) (file source : Option String)
    (declaration : Declaration) :
    rewriteIn (unitStage converter ("position" :: edges)) file
        (hideOffsets edges file [.leaf source (.declaration
          (if declaration.isPosition then declaration.makeSticky else declaration))]) =
      declarationVariant converter true file source declaration := by
  have unitStage_leaf : ∀ source (declaration : Declaration),
      unitStage converter ("position" :: edges) file source declaration =
        if declaration.isPosition || declaration.isOffset then
          pure (.ofNode (.leaf source (.declaration declaration)))
        else convertedLeaf converter source declaration := fun source declaration => by
    rw [unitStage, skipped_iff]
  rw [hideOffsets_edges, declarationVariant, Bool.true_and, Bool.true_and]
  cases isPosition : declaration.isPosition with
  | true =>
      have isSticky : declaration.makeSticky.isPosition ∧ declaration.makeSticky.isOffset = false := by
        obtain ⟨property, value, important⟩ := declaration
        obtain rfl : property = "position" := by simpa [Declaration.isPosition] using isPosition
        rw [Declaration.makeSticky]
        split <;> exact ⟨rfl, by simp [Declaration.isOffset]⟩
      rw [if_pos rfl, isSticky.2, if_neg Bool.false_ne_true, rewriteIn_singleton, unitStage_leaf,
        isSticky.1, Bool.true_or, if_pos rfl, if_pos rfl]
  | false =>
      rw [if_neg Bool.false_ne_true, if_neg Bool.false_ne_true]
      cases isOffset : declaration.isOffset with
      | true =>
          have ofVariable : declaration.variableDeclaration.isPosition = false ∧
              declaration.variableDeclaration.isOffset = false := by
            obtain ⟨property, value, important⟩ := declaration
            have isEdge : property = "top" ∨ property = "right" ∨ property = "bottom" ∨
                property = "left" := by
              simpa [Declaration.isOffset] using isOffset
            rcases isEdge with rfl | rfl | rfl | rfl <;>
              simp [Declaration.isPosition, Declaration.isOffset, Declaration.variableDeclaration,
                Declaration.variableName]
          have ofReference : declaration.referToVariable.isOffset = true := isOffset
          rw [if_pos rfl, if_pos rfl, rewriteIn_leaf, rewriteIn_singleton, unitStage_leaf,
            ofVariable.1, ofVariable.2, unitStage_leaf, ofReference, Bool.or_true, if_pos rfl]
          rfl
      | false =>
          rw [if_neg Bool.false_ne_true, if_neg Bool.false_ne_true, rewriteIn_singleton,
            unitStage_leaf, isPosition, isOffset]
          rfl

/-- Processing the children of a block declaration by declaration comes to the same as
processing them in stages. -/
theorem processChildren_eq_processInStages (converter : Converter) (file : Option String)
    (children : List Node) :
    processChildren converter true file children = processInStages converter file children := by
  have sameStage : ∀ fixed : Bool,
      rewriteIn (unitStage converter (if fixed then "position" :: edges else [])) file
          (if fixed then placedInStages file children else children) =
        nodesVariant converter fixed file children := fun fixed => by
    rw [nodesVariant_eq_rewriteIn]
    cases fixed with
    | false => rfl
    | true =>
        rw [if_pos rfl, if_pos rfl, placedInStages, rewriteIn_hideOffsets, stickyStage,
          rewriteIn_silent]
        congr 1
        funext file source declaration
        rw [rewriteIn_singleton]
        exact rewriteIn_stages converter file source declaration
  rw [processChildren, processInStages, ← sameStage]
  rfl

/-! ## Rules of declarations and comments -/

/-- What one pass makes of a child of a rule: the nodes in its place, each with whether the value
is one that converting units has changed. -/
def onePass (converter : Converter) (fixed : Bool) (file : Option String) : Node → List (Node × Bool)
  | .leaf source (.declaration ⟨property, value, important⟩) =>
      if fixed && property == "position" then
        let value := if Text.lower (Text.trim value.toList) = "fixed".toList then "sticky" else value
        [(.leaf source (.declaration ⟨property, value, important⟩), false)]
      else if fixed && ["top", "right", "bottom", "left"].contains property then
        [(.leaf (source.or file)
            (.declaration ⟨"--container-" ++ property, converter.convert value, important⟩),
          converter.convert value != value),
        (.leaf source (.declaration ⟨property, "var(--container-" ++ property ++ ")", important⟩),
          false)]
      else
        [(.leaf source (.declaration ⟨property, converter.convertFor property value, important⟩),
          converter.convertFor property value != value)]
  | node => [(node, false)]

/-- Variables are not typographic. -/
theorem convertFor_variableName (converter : Converter) {declaration : Declaration}
    (isOffset : declaration.isOffset) (value : String) :
    converter.convertFor declaration.variableName value = converter.convert value := by
  have notTypographic : Value.isTypographic declaration.variableName = false := by
    have isEdge : declaration.property = "top" ∨ declaration.property = "right" ∨
        declaration.property = "bottom" ∨ declaration.property = "left" := by
      simpa [Declaration.isOffset] using isOffset
    rcases isEdge with same | same | same | same <;> rw [Declaration.variableName, same] <;> decide
  rw [Converter.convertFor, Converter.schemeFor, notTypographic]
  rfl

theorem value_declarationVariant (converter : Converter) (fixed : Bool)
    (file source : Option String) (declaration : Declaration) :
    (declarationVariant converter fixed file source declaration).value =
      { nodes := (onePass converter fixed file (.leaf source (.declaration declaration))).map Prod.fst,
        converted :=
          (onePass converter fixed file (.leaf source (.declaration declaration))).countP Prod.snd } := by
  have ofVariable : declaration.isOffset → ∀ value,
      converter.convertFor declaration.variableName value = converter.convert value :=
    convertFor_variableName converter
  obtain ⟨property, value, important⟩ := declaration
  rw [declarationVariant, onePass, Declaration.isPosition, Declaration.isOffset]
  split
  · simp only [Traced.value_pure, Variant.ofNode, Declaration.makeSticky, Declaration.isFixedValue,
      beq_iff_eq]
    split <;> rfl
  split
  · rename_i isOffset
    have same := ofVariable (Bool.and_eq_true_iff.mp isOffset).2 value
    simp only [Declaration.variableName] at same
    have reference : "var(" ++ ("--container-" ++ property) ++ ")" =
        "var(--container-" ++ property ++ ")" := by
      rw [← String.append_assoc]
      rfl
    simp [convertedLeaf, Converter.traceDeclaration, Converter.convertDeclaration,
      Converter.changes, Declaration.variableDeclaration, Declaration.referToVariable,
      Declaration.variableName, same, Variant.append, Variant.ofNode, reference, List.countP_cons]
  · simp [convertedLeaf, Converter.traceDeclaration, Converter.convertDeclaration,
      Converter.changes, List.countP_cons]

/-- What processing makes of a rule that holds only declarations and comments. -/
theorem value_nodesVariant (converter : Converter) (fixed : Bool) (file : Option String)
    {children : List Node} (leaves : ∀ node ∈ children, node.isLeaf) :
    (nodesVariant converter fixed file children).value =
      { nodes := (children.flatMap (onePass converter fixed file)).map Prod.fst,
        converted := (children.flatMap (onePass converter fixed file)).countP Prod.snd } := by
  induction children, leaves using leaves_induction with
  | nil => rfl
  | leaf source content rest _ ofRest =>
      rw [nodesVariant, Traced.value_bind, Traced.value_bind, Traced.value_pure, ofRest,
        List.flatMap_cons, List.map_append, List.countP_append]
      cases content with
      | declaration declaration =>
          rw [nodeVariant, value_declarationVariant]
          rfl
      | comment text => rfl

theorem hasFixedPosition_iff {children : List Node} (leaves : ∀ node ∈ children, node.isLeaf) :
    hasFixedPosition children ↔ ∃ source declaration,
      .leaf source (.declaration declaration) ∈ children ∧ declaration.property = "position" ∧
        Text.lower (Text.trim declaration.value.toList) = "fixed".toList := by
  have areDeclarations : declarationsIn children = children.filterMap Node.declaration? := by
    induction children, leaves using leaves_induction with
    | nil => rfl
    | leaf source content rest _ ofRest =>
        rw [declarationsIn, descendantsIn_leaf, List.filterMap_cons, List.filterMap_cons, ← ofRest]
        rfl
  rw [hasFixedPosition, areDeclarations, List.any_eq_true]
  constructor
  · rintro ⟨declaration, member, isFixed⟩
    obtain ⟨node, inChildren, isDeclaration⟩ := List.mem_filterMap.mp member
    simp only [Declaration.isFixed, Declaration.isPosition, Declaration.isFixedValue,
      Bool.and_eq_true, beq_iff_eq] at isFixed
    cases node with
    | block => cases isDeclaration
    | leaf source content =>
        cases content with
        | comment => cases isDeclaration
        | declaration _ =>
            obtain rfl := Option.some.inj isDeclaration
            exact ⟨source, _, inChildren, isFixed⟩
  · rintro ⟨source, declaration, member, isPosition, isFixed⟩
    refine ⟨declaration, List.mem_filterMap.mpr ⟨_, member, rfl⟩, ?_⟩
    simp [Declaration.isFixed, Declaration.isPosition, Declaration.isFixedValue, isPosition, isFixed]

/-- The children of a rule are processed in one pass. -/
structure ProcessedInOnePass (converter : Converter) (file : Option String) (children : List Node)
    (fixed : Bool) : Prop where
  /-- The flag tells whether a child has a fixed position. -/
  fixed_iff : fixed ↔ ∃ source declaration, .leaf source (.declaration declaration) ∈ children ∧
    declaration.property = "position" ∧
      Text.lower (Text.trim declaration.value.toList) = "fixed".toList
  /-- The children are what one pass makes of them, and all values changed by it are counted. -/
  value : (processChildren converter true file children).value =
    { children := (children.flatMap (onePass converter fixed file)).map Prod.fst, fixed,
      converted := (children.flatMap (onePass converter fixed file)).countP Prod.snd }
  /-- Going over all declarations once for each stage comes to the same. -/
  inStages : processChildren converter true file children = processInStages converter file children
  /-- The children of a rule that is no container variant stay as they are. -/
  untouched : processChildren converter false file children = pure { children, fixed, converted := 0 }

/-- The children of a rule that holds only declarations and comments are processed in one
pass. -/
theorem processChildren_onePass (converter : Converter) (file : Option String)
    {children : List Node} (leaves : ∀ node ∈ children, node.isLeaf) :
    ∃ fixed, ProcessedInOnePass converter file children fixed := by
  refine ⟨hasFixedPosition children, hasFixedPosition_iff leaves, ?_,
    processChildren_eq_processInStages converter file children, rfl⟩
  rw [processChildren, if_pos rfl, Traced.value_bind, Traced.value_pure,
    value_nodesVariant converter _ file leaves]

/-- The children of a rule with a fixed position: an offset given twice, and a variable that has
the name of the one it goes behind. -/
def crowdedChildren : List Node :=
  [.leaf none (.declaration { property := "top", value := "1vh", important := true }),
    .leaf none (.comment "sticks"),
    .leaf none (.declaration { property := "position", value := " FIXED " }),
    .leaf (some "theme.css") (.declaration { property := "--container-top", value := "2vw" }),
    .leaf none (.declaration { property := "margin-top", value := "3vmin" }),
    .leaf none (.declaration { property := "top", value := "4px" })]

theorem processChildren_onePass_crowdedChildren :
    (∀ node ∈ crowdedChildren, node.isLeaf) ∧
      ∃ fixed, ProcessedInOnePass ⟨.standard, .standardTypography⟩ (some "site.css")
        crowdedChildren fixed :=
  ⟨by decide, processChildren_onePass ⟨.standard, .standardTypography⟩ (some "site.css") (by decide)⟩

end ContainerPreview
