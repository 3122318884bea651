import ContainerPreview.Proofs.Sheet.Addition
import ContainerPreview.Proofs.Value.Detection
import ContainerPreview.Transform.Declarations

/-!
# Detection foretells processing

A rule needs a container variant exactly if processing its declarations changes more than blanks
in their values.  Each declaration has a part of the outcome of its own, which is never empty.
So the outcome is the list that there was only if every part is the declaration that it comes
from, and that is so only where there is no fixed position and no viewport unit.
-/

namespace ContainerPreview

open Text Value

/-! ## What becomes of one declaration -/

namespace Declaration

/-- The declaration without the blanks in its value. -/
def bare (declaration : Declaration) : Declaration :=
  { declaration with value := String.ofList (withoutBlanks declaration.value.toList) }

/-- The declarations that one declaration becomes when it is processed.  The flag tells whether
the rule has a fixed position. -/
def processed (converter : Converter) (fixed : Bool) (declaration : Declaration) :
    List Declaration :=
  if fixed && declaration.isPosition then [declaration.makeSticky]
  else if fixed && declaration.isOffset then
    [converter.convertDeclaration declaration.variableDeclaration, declaration.referToVariable]
  else [converter.convertDeclaration declaration]

theorem processed_ne_nil (converter : Converter) (fixed : Bool) (declaration : Declaration) :
    declaration.processed converter fixed ≠ [] := by
  unfold processed
  repeat' split
  all_goals exact List.cons_ne_nil _ _

theorem declarationsIn_declarationVariant (converter : Converter) (fixed : Bool)
    (file source : Option String) (declaration : Declaration) :
    declarationsIn (declarationVariant converter fixed file source declaration).value.nodes =
      declaration.processed converter fixed := by
  rw [declarationVariant, processed]
  split
  · rfl
  · split
    · rfl
    · rfl

end Declaration

/-- Processing replaces every declaration, at any depth, by what it becomes. -/
theorem declarationsIn_nodesVariant (converter : Converter) (fixed : Bool) (file : Option String)
    (children : List Node) :
    declarationsIn (nodesVariant converter fixed file children).value.nodes =
      (declarationsIn children).flatMap (Declaration.processed converter fixed) := by
  induction children using forest_induction generalizing file with
  | nil => rfl
  | leaf source content rest ofRest =>
      rw [nodesVariant, Traced.value_bind, Traced.value_bind, Traced.value_pure, Variant.append,
        declarationsIn_append, ofRest]
      cases content with
      | declaration declaration =>
          rw [nodeVariant, Declaration.declarationsIn_declarationVariant]
          rfl
      | comment text => rfl
  | block source head settled children rest ofChildren ofRest =>
      rw [nodesVariant, Traced.value_bind, Traced.value_bind, Traced.value_pure, Variant.append,
        declarationsIn_append, ofRest, nodeVariant, Traced.value_bind, Traced.value_pure,
        declarationsIn_block, declarationsIn_block, ofChildren, List.flatMap_append]
      exact congrArg (· ++ _) (List.append_nil _)

/-! ## Declarations that stay -/

/-- Parts of which none is empty make up a list of as many elements only if each is the element
in its place. -/
theorem flatMap_eq_map_iff {α β : Type} {parts : α → List β} {element : α → β}
    (nonempty : ∀ a, parts a ≠ []) (list : List α) :
    list.flatMap parts = list.map element ↔ ∀ a ∈ list, parts a = [element a] := by
  have notShorter : ∀ list : List α, list.length ≤ (list.flatMap parts).length := by
    intro list
    induction list with
    | nil => exact Nat.le_refl 0
    | cons a list inductionHypothesis =>
        have positive := List.length_pos_iff.mpr (nonempty a)
        rw [List.flatMap_cons, List.length_append, List.length_cons]
        omega
  induction list with
  | nil => simp
  | cons a list inductionHypothesis =>
      rw [List.flatMap_cons, List.map_cons, List.forall_mem_cons]
      constructor
      · intro same
        obtain ⟨b, others, isPart⟩ := List.exists_cons_of_ne_nil (nonempty a)
        rw [isPart, List.cons_append, List.cons.injEq] at same
        have sameLength := congrArg List.length same.2
        have atLeast := notShorter list
        rw [List.length_append, List.length_map] at sameLength
        obtain rfl : others = [] := List.length_eq_zero_iff.mp (by omega)
        exact ⟨by rw [isPart, same.1], inductionHypothesis.mp same.2⟩
      · rintro ⟨isPart, areParts⟩
        rw [isPart, inductionHypothesis.mpr areParts]
        rfl

namespace Declaration

/-- No keyword in some case of letters has the letters of the other one. -/
theorem not_isFixedValue_of_sticky {declaration : Declaration}
    (ascii : IsAscii declaration.value.toList)
    (isSticky : withoutBlanks declaration.value.toList = "sticky".toList) :
    declaration.isFixedValue = false := by
  rw [← Bool.not_eq_true]
  intro isFixed
  have inFixed : 'x' ∈ lower (trim declaration.value.toList) := by
    rw [eq_of_beq isFixed]
    decide
  obtain ⟨c, inTrimmed, isX⟩ := List.mem_flatMap.mp inFixed
  have member := mem_of_mem_trim inTrimmed
  have notInSticky : isBlank c = false ∧ c ∉ "sticky".toList :=
    forall_ascii (fun c => 'x' ∈ lowerChar c → isBlank c = false ∧ c ∉ "sticky".toList)
      (by decide) (ascii c member) isX
  apply notInSticky.2
  rw [← isSticky]
  exact List.mem_filter.mpr ⟨member, by rw [notInSticky.1]; rfl⟩

/-- A fixed position that is made sticky changes in more than blanks. -/
theorem bare_makeSticky_ne {declaration : Declaration} (ascii : IsAscii declaration.value.toList)
    (isFixed : declaration.isFixedValue) : declaration.makeSticky.bare ≠ declaration.bare := by
  rw [makeSticky, if_pos isFixed]
  intro same
  have sameValue : withoutBlanks "sticky".toList = withoutBlanks declaration.value.toList :=
    String.ofList_inj.mp (congrArg Declaration.value same)
  have noBlanks : withoutBlanks "sticky".toList = "sticky".toList := by decide
  rw [not_isFixedValue_of_sticky ascii (sameValue.symm.trans noBlanks)] at isFixed
  cases isFixed

/-- Conversion changes more than blanks exactly where a viewport unit is in use. -/
theorem bare_convertDeclaration {declaration : Declaration}
    (ascii : IsAscii declaration.value.toList) :
    (Converter.standard.convertDeclaration declaration).bare = declaration.bare ↔
      Converter.standard.hasUnits declaration.value = false := by
  rw [Converter.convertDeclaration, bare, bare, Declaration.mk.injEq, String.ofList_inj]
  simpa using Converter.withoutBlanks_convertFor_standard declaration.property ascii

end Declaration

/-! ## Rules -/

/-- By the maps that are used by default, and for values in ASCII, a rule needs a variant exactly
if processing its declarations for the container changes them in something else than blanks in
values. -/
theorem needsVariant_iff_changes (file : Option String) {children : List Node}
    (ascii : ∀ declaration ∈ declarationsIn children, IsAscii declaration.value.toList) :
    needsVariant .standard children ↔
      (declarationsIn (processChildren .standard true file children).value.children).map
          Declaration.bare ≠
        (declarationsIn children).map Declaration.bare := by
  have isProcessed : declarationsIn (processChildren .standard true file children).value.children =
      (declarationsIn children).flatMap
        (Declaration.processed .standard (hasFixedPosition children)) := by
    rw [← declarationsIn_nodesVariant _ _ file]
    rfl
  have nonempty : ∀ declaration : Declaration,
      (declaration.processed .standard (hasFixedPosition children)).map Declaration.bare ≠ [] :=
    fun declaration isNil => declaration.processed_ne_nil _ _ (List.map_eq_nil_iff.mp isNil)
  rw [isProcessed, List.map_flatMap, ne_eq, flatMap_eq_map_iff nonempty]
  cases isFixed : hasFixedPosition children with
  | true =>
      have needs : needsVariant .standard children := by
        rw [needsVariant, isFixed, Bool.true_or]
      refine iff_of_true needs fun stays => ?_
      obtain ⟨declaration, member, here⟩ := List.any_eq_true.mp isFixed
      obtain ⟨isPosition, isFixedValue⟩ := Bool.and_eq_true_iff.mp here
      have stay := stays declaration member
      rw [Declaration.processed, isPosition, Bool.and_self, if_pos rfl, List.map_singleton,
        List.singleton_inj] at stay
      exact Declaration.bare_makeSticky_ne (ascii declaration member) isFixedValue stay
  | false =>
      have stays_iff : ∀ declaration ∈ declarationsIn children,
          ((declaration.processed .standard false).map Declaration.bare = [declaration.bare] ↔
            Converter.standard.hasUnits declaration.value = false) := by
        intro declaration member
        rw [← Declaration.bare_convertDeclaration (ascii declaration member)]
        exact List.singleton_inj
      rw [needsVariant, isFixed, Bool.false_or, forall₂_congr stays_iff, List.any_eq_true]
      simp

/-- Children of a rule without a viewport unit outside of literals: only blanks in the arguments
of a call change. -/
def quietChildren : List Node :=
  [.leaf none (.declaration { property := "position", value := "sticky" }),
    .leaf none (.comment "100vw"),
    .leaf none (.declaration { property := "Font-Size", value := "CLAMP( 1rem ,2px+ 1rem, x1vw )" }),
    .leaf none (.declaration { property := "src", value := "url(1vw.png) '2vw' fixed" })]

theorem needsVariant_iff_changes_quietChildren :
    (∀ declaration ∈ declarationsIn quietChildren, IsAscii declaration.value.toList) ∧
      (needsVariant .standard quietChildren ↔
        (declarationsIn (processChildren .standard true none quietChildren).value.children).map
            Declaration.bare ≠
          (declarationsIn quietChildren).map Declaration.bare) := by
  have ascii : ∀ declaration ∈ declarationsIn quietChildren, IsAscii declaration.value.toList := by
    decide
  exact ⟨ascii, needsVariant_iff_changes none ascii⟩

end ContainerPreview
