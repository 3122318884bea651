import ContainerPreview.Proofs.Sheet.Addition
import ContainerPreview.Proofs.Toggle.Fixed
import ContainerPreview.Proofs.Value.Literals

/-!
# Declarations fit for the container

With the standard maps, every rule that a run puts into a sheet has, at any depth
outside keyframes, no fixed position and no viewport unit.

Each rule that is put in has its declarations converted with all that is nested in
it, and whatever is put into it later is made of converted declarations.  This is
about values in ASCII in which no backslash stands before an end of line.  Such a
backslash in a string makes the converter take the string for free text.
-/

namespace ContainerPreview

open Text Value

/-! ## Declarations -/

/-- The declaration can stand in a rule for the container: it is no fixed position, and
no other declaration with a viewport unit. -/
def Converter.fits (converter : Converter) (declaration : Declaration) : Bool :=
  if declaration.isPosition then !declaration.isFixedValue
  else !converter.hasUnits declaration.value

/-- The value of the declaration is in ASCII, and no backslash in it takes an end of
line. -/
structure Declaration.IsPlain (declaration : Declaration) : Prop where
  ascii : IsAscii declaration.value.toList
  unbroken : isUnbroken false declaration.value.toList

instance (declaration : Declaration) : Decidable declaration.IsPlain :=
  decidable_of_iff
    (IsAscii declaration.value.toList ∧ isUnbroken false declaration.value.toList)
    ⟨fun ⟨ascii, unbroken⟩ => ⟨ascii, unbroken⟩, fun plain => ⟨plain.ascii, plain.unbroken⟩⟩

/-- The declarations of the nodes are plain, and fit where they are in a rule that was put
in. -/
abbrev Fitting : Zone → List Node → Prop :=
  Holds Declaration.IsPlain fun declaration => Converter.standard.fits declaration

theorem fitting_declaration {zone : Zone} {source : Option String} {declaration : Declaration}
    (plain : declaration.IsPlain) (fits : Converter.standard.fits declaration) :
    Fitting zone [.leaf source (.declaration declaration)] := by
  refine .leaf (fun own isOwn => ?_) .nil
  cases isOwn
  exact ⟨plain, fun _ => fits⟩

theorem isPlain_convertDeclaration {declaration : Declaration} (plain : declaration.IsPlain) :
    (Converter.standard.convertDeclaration declaration).IsPlain := by
  obtain ⟨ascii, unbroken, -⟩ :=
    Converter.convertFor_standard declaration.property plain.ascii plain.unbroken
  exact ⟨ascii, unbroken⟩

/-- A converted declaration fits unless it is a fixed position. -/
theorem fits_convertDeclaration {declaration : Declaration} (plain : declaration.IsPlain)
    (notFixed : declaration.isFixed = false) :
    Converter.standard.fits (Converter.standard.convertDeclaration declaration) := by
  unfold Converter.fits
  split
  · rename_i isPosition
    cases isFixed : (Converter.standard.convertDeclaration declaration).isFixedValue with
    | false => rfl
    | true =>
        have stillFixed : (Converter.standard.convertDeclaration declaration).isFixed := by
          rw [Declaration.isFixed, isPosition, isFixed]
          rfl
        rw [isFixed_of_convertDeclaration stillFixed] at notFixed
        cases notFixed
  · have noUnits :=
      (Converter.convertFor_standard declaration.property plain.ascii plain.unbroken).2.2
    rw [Converter.convertDeclaration, noUnits]
    rfl

theorem fitting_convertedLeaf {zone : Zone} {source : Option String} {declaration : Declaration}
    (plain : declaration.IsPlain) (notFixed : declaration.isFixed = false) :
    Fitting zone (convertedLeaf Converter.standard source declaration).value.nodes :=
  fitting_declaration (isPlain_convertDeclaration plain) (fits_convertDeclaration plain notFixed)

theorem fits_of_isPosition {declaration : Declaration} (isPosition : declaration.isPosition)
    (notFixed : declaration.isFixedValue = false) : Converter.standard.fits declaration := by
  rw [Converter.fits, if_pos isPosition, notFixed]
  rfl

theorem fitting_makeSticky {zone : Zone} {source : Option String} {declaration : Declaration}
    (plain : declaration.IsPlain) (isPosition : declaration.isPosition) :
    Fitting zone [.leaf source (.declaration declaration.makeSticky)] := by
  unfold Declaration.makeSticky
  split
  · have isAscii : IsAscii "sticky".toList := by decide
    have isUnbroken : isUnbroken false "sticky".toList := by decide
    have notFixed : (lower (trim "sticky".toList) == "fixed".toList) = false := by decide
    exact fitting_declaration ⟨isAscii, isUnbroken⟩ (fits_of_isPosition isPosition notFixed)
  · rename_i notFixed
    exact fitting_declaration plain
      (fits_of_isPosition isPosition (Bool.eq_false_iff.mpr notFixed))

/-- The offset itself refers to its variable only. -/
theorem fitting_referToVariable {zone : Zone} {source : Option String} {declaration : Declaration}
    (isOffset : declaration.isOffset) :
    Fitting zone [.leaf source (.declaration declaration.referToVariable)] := by
  have ofName : ∀ property ∈ ["top", "right", "bottom", "left"],
      IsAscii ("var(--container-" ++ property ++ ")").toList ∧
        isUnbroken false ("var(--container-" ++ property ++ ")").toList ∧
          Converter.standard.hasUnits ("var(--container-" ++ property ++ ")") = false ∧
            property ≠ "position" := by
    decide +kernel
  rw [Declaration.isOffset, List.contains_iff_mem] at isOffset
  obtain ⟨ascii, unbroken, noUnits, notPosition⟩ := ofName _ isOffset
  have isValue : declaration.referToVariable.value =
      "var(--container-" ++ declaration.property ++ ")" := by
    rw [Declaration.referToVariable, Declaration.variableName, ← String.append_assoc]
    rfl
  refine fitting_declaration ⟨by rw [isValue]; exact ascii, by rw [isValue]; exact unbroken⟩ ?_
  have isOther : declaration.referToVariable.isPosition = false := by
    simpa [Declaration.isPosition, Declaration.referToVariable] using notPosition
  rw [Converter.fits, isOther, isValue, noUnits]
  rfl

theorem isFixed_variableDeclaration (declaration : Declaration) :
    declaration.variableDeclaration.isFixed = false := by
  have notPosition : ("--container-" ++ declaration.property == "position") = false := by
    rw [beq_eq_false_iff_ne]
    intro same
    have sameLetters := congrArg String.toList same
    rw [String.toList_append] at sameLetters
    cases sameLetters
  rw [Declaration.isFixed, Declaration.isPosition, Declaration.variableDeclaration,
    Declaration.variableName, notPosition]
  rfl

/-- What a variant has of a declaration fits, if a fixed position has been found where there
is one. -/
theorem fitting_declarationVariant {zone : Zone} {fixed : Bool} (file source : Option String)
    {declaration : Declaration} (plain : declaration.IsPlain)
    (noneMissed : fixed = false → declaration.isFixed = false) :
    Fitting zone
      (declarationVariant Converter.standard fixed file source declaration).value.nodes := by
  unfold declarationVariant
  split
  · rename_i isSticky
    rw [Bool.and_eq_true] at isSticky
    exact fitting_makeSticky plain isSticky.2
  · rename_i notSticky
    split
    · rename_i isOffset
      rw [Bool.and_eq_true] at isOffset
      have variablePlain : declaration.variableDeclaration.IsPlain := ⟨plain.ascii, plain.unbroken⟩
      rw [Traced.value_bind, Traced.value_pure]
      exact Holds.append_iff.mpr
        ⟨fitting_convertedLeaf variablePlain (isFixed_variableDeclaration declaration),
          fitting_referToVariable isOffset.2⟩
    · refine fitting_convertedLeaf plain ?_
      cases fixed with
      | false => exact noneMissed rfl
      | true =>
          have notPosition : declaration.isPosition = false := by simpa using notSticky
          rw [Declaration.isFixed, notPosition]
          rfl

/-- The nodes of a variant are fit for the container. -/
theorem fitting_nodesVariant {fixed : Bool} (file : Option String) {nodes : List Node}
    (fitting : Fitting .authored nodes)
    (noneMissed : fixed = false → hasFixedPosition nodes = false) :
    Fitting .inner (nodesVariant Converter.standard fixed file nodes).value.nodes := by
  induction nodes using forest_induction generalizing file with
  | nil => exact .nil
  | leaf source content rest ofRest =>
      cases fitting with
      | leaf ofLeaf restFitting =>
          simp only [hasFixedPosition_leaf, Bool.or_eq_false_iff] at noneMissed
          rw [nodesVariant, Traced.value_bind, Traced.value_bind, Traced.value_pure]
          refine Holds.append_iff.mpr ⟨?_, ofRest file restFitting fun none => (noneMissed none).2⟩
          cases content with
          | declaration declaration =>
              exact fitting_declarationVariant file source (ofLeaf declaration rfl).1
                fun none => (noneMissed none).1
          | comment text => exact .leaf (fun declaration isOwn => by cases isOwn) .nil
  | block source head settled children rest ofChildren ofRest =>
      cases fitting with
      | block childrenFitting restFitting =>
          simp only [hasFixedPosition_block, Bool.or_eq_false_iff] at noneMissed
          rw [nodesVariant, Traced.value_bind, Traced.value_bind, Traced.value_pure]
          refine Holds.append_iff.mpr ⟨?_, ofRest file restFitting fun none => (noneMissed none).2⟩
          rw [nodeVariant, Traced.value_bind, Traced.value_pure]
          exact .block (ofChildren source childrenFitting fun none => (noneMissed none).1) .nil

/-! ## Rules and copies -/

/-- Nodes made of what is in a block are fit where they are put in. -/
abbrev Makes : Node → List Node → Prop :=
  MadeOf Declaration.IsPlain fun declaration => Converter.standard.fits declaration

theorem makes_nil (block : Node) : Makes block [] :=
  MadeOf.nil block

/-- Fit nodes that are no higher than zero levels are so in any zone but that of rules. -/
theorem Fitting.of_leaves {zone zone' : Zone} {nodes : List Node} (fitting : Fitting zone nodes)
    (ofInner : zone' = .inner → zone = .inner) (leaves : heightIn nodes ≤ 0) :
    Fitting zone' nodes := by
  induction fitting with
  | nil => exact .nil
  | leaf ofLeaf _ ofRest => exact .leafIn ofInner ofLeaf (ofRest ofInner (by simpa using leaves))
  | block => simp at leaves

namespace Toggle

variable {toggle : Toggle} {zone : Zone}

theorem fitting_variantChildren (standard : toggle.converter = Converter.standard)
    (file : Option String) {children : List Node} (fitting : Fitting zone children) :
    Fitting .inner (toggle.variantChildren file children).value := by
  simp only [variantChildren, processChildren, standard, if_true, Traced.value_bind,
    Traced.value_pure]
  exact fitting_nodesVariant file fitting.authored id

/-- The variants of a rule are made of its children. -/
theorem makes_variants (standard : toggle.converter = Converter.standard)
    (around source : Option String) (selector selector' : String) (settled : Bool)
    (children : List Node) :
    Makes (.block source (.rule selector') settled children)
      (toggle.forkRule around source selector children).value.variants := by
  intro zone fitting
  have ofChildren := Holds.block_iff.mp fitting
  unfold forkRule
  split
  · have converted := fitting_variantChildren standard source (ofChildren.copyInto source)
    exact .block (converted.of_inner _) .nil
  · exact .nil

/-- Copies of at most so many levels are fit after `enter` wherever they are put in.  Rules
directly in keyframes are not converted, but they are not in the zone outside rules either. -/
def EntersFit (levels : Nat) (enter : Bool → List Node → Traced (List Node)) : Prop :=
  ∀ (zone zone' : Zone) (inKeyframes : Bool) (nodes : List Node), Fitting zone nodes →
    (zone' = .inner → zone = .inner) → (inKeyframes → zone' ≠ .outer) →
      heightIn nodes ≤ levels → Fitting zone' (enter inKeyframes nodes).value

/-- A converted copy is fit if its children are once they have been entered. -/
theorem fitting_convertCopy (standard : toggle.converter = Converter.standard) {levels : Nat}
    {enter : Bool → List Node → Traced (List Node)} (entersFit : EntersFit levels enter)
    {zone zone' : Zone} {inKeyframes : Bool} {source : Option String} {head : Head}
    {settled : Bool} {children : List Node} (fitting : Fitting (zone.within head) children)
    (ofInner : zone' = .inner → zone = .inner) (ofFlag : inKeyframes → zone' ≠ .outer)
    (within : heightIn children ≤ levels) :
    Fitting zone'
      [(toggle.convertCopy enter inKeyframes (.block source head settled children)).value] := by
  have entered (inFrames : Bool) (noneNew : zone'.within head = .inner → zone' = .inner)
      (ofFrames : inFrames → zone'.within head ≠ .outer) :
      Fitting zone' [.block source head settled (enter inFrames children).value] := by
    refine .block (entersFit _ _ inFrames children fitting ?_ ofFrames within) .nil
    intro isInner
    rw [ofInner (noneNew isInner), Zone.within_inner]
  cases head with
  | sheet =>
      exact entered false (Zone.eq_inner_of_within (fun _ same => by cases same))
        fun isKeyframes => by cases isKeyframes
  | rule selector =>
      cases inKeyframes with
      | true =>
          exact entered false (Zone.eq_inner_of_within_rule (ofFlag rfl))
            fun isKeyframes => by cases isKeyframes
      | false =>
          have converted := fitting_variantChildren standard source fitting
          have enteredBelow := entersFit .inner .inner false _ converted id
            (fun isKeyframes => by cases isKeyframes)
            (by rw [heightIn_variantChildren]; exact within)
          exact .block (enteredBelow.of_inner _) .nil
  | atRule name params hasBlock =>
      exact entered (Head.atRule name params hasBlock).isKeyframes
        (Zone.eq_inner_of_within (fun _ same => by cases same)) Zone.within_ne_outer

/-- Copies of which all levels are converted are fit for the preview. -/
theorem entersFit_convertCopies (standard : toggle.converter = Converter.standard)
    (levels : Nat) : EntersFit levels (toggle.convertCopies levels) := by
  intro zone zone' inKeyframes nodes fitting ofInner ofFlag within
  induction levels generalizing zone zone' inKeyframes nodes with
  | zero => exact fitting.of_leaves ofInner within
  | succ levels inductionHypothesis =>
      induction fitting with
      | nil => exact .nil
      | leaf ofLeaf _ ofRest =>
          rw [value_convertCopies_leaf]
          exact .leafIn ofInner ofLeaf (ofRest ofInner (by simpa using within))
      | block ofChildren _ _ ofRest =>
          simp only [heightIn_cons, height_block, Nat.max_le] at within
          rw [value_convertCopies_block]
          exact Holds.cons_iff.mpr
            ⟨fitting_convertCopy standard inductionHypothesis ofChildren ofInner ofFlag (by omega),
              ofRest ofInner within.2⟩

/-- Where a node is put in as a copy for the preview, it is fit. -/
theorem fitting_previewCopy (standard : toggle.converter = Converter.standard) {node : Node}
    (fitting : Fitting zone [node]) : Fitting zone.added (toggle.previewCopy node).value := by
  have copied : Fitting zone [node.copy] := Holds.copy fitting
  have ofInner : zone.added = .inner → zone = .inner := by cases zone <;> simp [Zone.added]
  have convertedAll : Fitting zone.added
      (toggle.convertCopies node.copy.height false [node.copy]).value :=
    entersFit_convertCopies standard _ zone _ false _ copied ofInner
      (fun isKeyframes => by cases isKeyframes) (by simp)
  rcases node with _ | ⟨source, _ | selector | _, settled, children⟩
  · exact convertedAll
  · exact convertedAll
  · have converted := fitting_variantChildren standard source (Holds.block_iff.mp copied)
    exact .block (converted.of_inner _) .nil
  · exact convertedAll

end Toggle

end ContainerPreview
