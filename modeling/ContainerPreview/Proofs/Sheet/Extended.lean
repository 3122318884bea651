import ContainerPreview.Transform.UnitCopy
import Mathlib.Data.List.Forall2
import Mathlib.Data.List.Infix

/-!
# Sheets with rules put in behind rules

A tree is extended if nodes are put in right behind some of its rules, and nothing else
happens: every node stays in the block it is in and in its order, with all that is written in
it, and what is put in is not extended itself.

Copying declarations with viewport units extends a sheet by one rule behind every rule that
is to be copied.
-/

namespace ContainerPreview

/-- The nodes of a block with the given head and file, before and after nodes have been put in
right behind rules.  What is put in behind a rule is told by `puts` from the block that the rule
is in, its selector list and its children. -/
inductive Extended (puts : Head → Option String → String → List Node → List Node → Prop) :
    Head → Option String → List Node → List Node → Prop
  | nil {parent : Head} {file : Option String} : Extended puts parent file [] []
  /-- A leaf stays as it is. -/
  | leaf {parent : Head} {file source : Option String} {content : Leaf} {before after : List Node}
      (ofRest : Extended puts parent file before after) :
      Extended puts parent file (.leaf source content :: before) (.leaf source content :: after)
  /-- A rule has its children extended and nodes put in right behind it. -/
  | rule {parent : Head} {file source : Option String} {selector : String} {settled : Bool}
      {children children' added before after : List Node}
      (ofChildren : Extended puts (.rule selector) source children children')
      (isAdded : puts parent file selector children added)
      (ofRest : Extended puts parent file before after) :
      Extended puts parent file (.block source (.rule selector) settled children :: before)
        (.block source (.rule selector) settled children' :: (added ++ after))
  /-- Another block has its children extended. -/
  | block {parent : Head} {file source : Option String} {head : Head} {settled : Bool}
      {children children' before after : List Node} (noRule : ∀ selector, head ≠ .rule selector)
      (ofChildren : Extended puts head source children children')
      (ofRest : Extended puts parent file before after) :
      Extended puts parent file (.block source head settled children :: before)
        (.block source head settled children' :: after)

/-- If it is told uniquely what is put in behind a rule, there is only one way to extend a
sheet. -/
theorem Extended.unique
    {puts : Head → Option String → String → List Node → List Node → Prop}
    (unique : ∀ parent file selector, Relator.RightUnique (puts parent file selector))
    {parent : Head} {file : Option String} {before after after' : List Node}
    (extended : Extended puts parent file before after)
    (extended' : Extended puts parent file before after') : after = after' := by
  induction extended generalizing after' with
  | nil =>
      cases extended'
      rfl
  | leaf _ ofRest =>
      cases extended' with
      | leaf restExtended => rw [ofRest restExtended]
  | rule _ isAdded _ ofChildren ofRest =>
      cases extended' with
      | rule childrenExtended isAdded' restExtended =>
          rw [ofChildren childrenExtended, unique _ _ _ isAdded isAdded', ofRest restExtended]
      | block noRule => exact absurd rfl (noRule _)
  | block noRule _ _ ofChildren ofRest =>
      cases extended' with
      | rule => exact absurd rfl (noRule _)
      | block _ childrenExtended restExtended =>
          rw [ofChildren childrenExtended, ofRest restExtended]

namespace UnitCopy

variable (transform : UnitCopy)

/-! ## What is put in -/

/-- A declaration with a unit that is converted. -/
def usesUnits (node : Node) : Bool :=
  node.declaration?.any fun declaration => transform.converter.hasUnits declaration.value

/-- A rule is copied if its selector list does not mention the given selector, it is not
directly in keyframes, and a declaration among its children uses a unit that is converted. -/
structure IsCopied (parent : Head) (selector : String) (children : List Node) : Prop where
  notScoped : ¬ transform.selector.toList <:+: selector.toList
  notInKeyframes : ¬ parent.isKeyframes
  usesUnits : ∃ child ∈ children, transform.usesUnits child

/-- The one declaration is the other one with its value converted. -/
inductive IsConverted : Node → Node → Prop
  | declaration (source : Option String) (property value : String) (important : Bool) :
      IsConverted (.leaf source (.declaration ⟨property, value, important⟩))
        (.leaf source (.declaration ⟨property, transform.converter.convert value, important⟩))

/-- The copy of a rule in a block from the given file: every selector of the rule stands below
the given one, and the children are the declarations that use units, in their order, with
converted values. -/
def IsCopyOf (file : Option String) (selector : String) (children : List Node) (copy : Node) :
    Prop :=
  ∃ declarations,
    copy = .block file
      (.rule (String.intercalate ", " ((Selector.selectorsOf selector.toList).map fun single =>
        transform.selector ++ " " ++ String.ofList single))) false declarations ∧
      List.Forall₂ transform.IsConverted (children.filter transform.usesUnits) declarations

/-- Behind a rule that is copied stands its copy and nothing else, and behind any other rule
nothing is put in. -/
def IsAdded (parent : Head) (file : Option String) (selector : String)
    (children added : List Node) : Prop :=
  (transform.IsCopied parent selector children ∧
      ∃ copy, added = [copy] ∧ transform.IsCopyOf file selector children copy) ∨
    (¬ transform.IsCopied parent selector children ∧ added = [])

/-! ## The added rule -/

theorem copyOf?_eq_some_iff {node copy : Node} :
    transform.copyOf? node = some copy ↔
      transform.usesUnits node ∧ transform.IsConverted node copy := by
  constructor
  · intro isCopy
    unfold copyOf? at isCopy
    split at isCopy
    · rename_i source declaration
      split at isCopy
      · rename_i uses
        cases isCopy
        exact ⟨by simpa [usesUnits, Node.declaration?] using uses, .declaration ..⟩
      · cases isCopy
    · cases isCopy
  · rintro ⟨uses, isConverted⟩
    cases isConverted
    simp only [usesUnits, Node.declaration?, Option.any_some] at uses
    simp [copyOf?, uses]

theorem rightUnique_isConverted : Relator.RightUnique transform.IsConverted := by
  intro node copy copy' isConverted isConverted'
  cases isConverted
  cases isConverted'
  rfl

theorem exists_copyOf? {node : Node} (uses : transform.usesUnits node) :
    ∃ copy, transform.copyOf? node = some copy := by
  cases node with
  | leaf source content =>
      cases content with
      | declaration declaration =>
          exact ⟨_, transform.copyOf?_eq_some_iff.mpr ⟨uses, .declaration ..⟩⟩
      | comment text => cases uses
  | block source head settled children => simp [usesUnits, Node.declaration?] at uses

theorem copyOf?_eq_none {node : Node} (usesNone : ¬ transform.usesUnits node) :
    transform.copyOf? node = none := by
  rw [Option.eq_none_iff_forall_ne_some]
  intro copy isCopy
  exact usesNone (transform.copyOf?_eq_some_iff.mp isCopy).1

/-- The declarations of a copy are those that use units, each of them converted. -/
theorem forall₂_filterMap_copyOf? (children : List Node) :
    List.Forall₂ transform.IsConverted (children.filter transform.usesUnits)
      (children.filterMap transform.copyOf?) := by
  induction children with
  | nil => exact .nil
  | cons child children inductionHypothesis =>
      by_cases uses : transform.usesUnits child
      · obtain ⟨copy, isCopy⟩ := transform.exists_copyOf? uses
        rw [List.filter_cons_of_pos uses, List.filterMap_cons_some isCopy]
        exact .cons (transform.copyOf?_eq_some_iff.mp isCopy).2 inductionHypothesis
      · rw [List.filter_cons_of_neg uses, List.filterMap_cons_none (transform.copyOf?_eq_none uses)]
        exact inductionHypothesis

theorem scopeList_eq (selector : String) :
    transform.scopeList selector =
      String.intercalate ", " ((Selector.selectorsOf selector.toList).map fun single =>
        transform.selector ++ " " ++ String.ofList single) := by
  rw [← String.toList_inj, scopeList, String.toList_ofList, String.toList_intercalate,
    List.map_map]
  congr 1
  refine List.map_congr_left fun single _ => ?_
  simp

theorem filterMap_copyOf?_eq_nil_iff (children : List Node) :
    children.filterMap transform.copyOf? = [] ↔
      ¬ ∃ child ∈ children, transform.usesUnits child := by
  rw [List.filterMap_eq_nil_iff]
  constructor
  · rintro noCopies ⟨child, member, uses⟩
    obtain ⟨copy, isCopy⟩ := transform.exists_copyOf? uses
    rw [noCopies child member] at isCopy
    cases isCopy
  · intro usesNone child member
    exact transform.copyOf?_eq_none fun uses => usesNone ⟨child, member, uses⟩

theorem isAdded_addedRule? (parent : Head) (file : Option String) (selector : String)
    (children : List Node) :
    transform.IsAdded parent file selector children
      (transform.addedRule? parent.isKeyframes file selector children).toList := by
  rw [addedRule?]
  split
  · rename_i skipped
    refine .inr ⟨fun isCopied => ?_, rfl⟩
    simp only [Bool.or_eq_true, List.isEmpty_iff, filterMap_copyOf?_eq_nil_iff,
      Text.contains_iff_infix] at skipped
    rcases skipped with (isScoped | inKeyframes) | usesNone
    · exact isCopied.notScoped isScoped
    · exact isCopied.notInKeyframes inKeyframes
    · exact usesNone isCopied.usesUnits
  · rename_i isCopied
    simp only [Bool.or_eq_true, List.isEmpty_iff, filterMap_copyOf?_eq_nil_iff,
      Text.contains_iff_infix, not_or, not_not] at isCopied
    obtain ⟨⟨notScoped, notInKeyframes⟩, uses⟩ := isCopied
    refine .inl ⟨⟨notScoped, notInKeyframes, uses⟩, _, rfl, _, ?_,
      transform.forall₂_filterMap_copyOf? children⟩
    rw [scopeList_eq]

/-- It is told uniquely what is put in. -/
theorem rightUnique_isAdded (parent : Head) (file : Option String) (selector : String) :
    Relator.RightUnique (transform.IsAdded parent file selector) := by
  intro children added added' isAdded isAdded'
  rcases isAdded with ⟨isCopied, copy, rfl, declarations, rfl, converted⟩ | ⟨notCopied, rfl⟩
  · rcases isAdded' with ⟨-, copy', rfl, declarations', rfl, converted'⟩ | ⟨notCopied, -⟩
    · rw [transform.rightUnique_isConverted.forall₂ converted converted']
    · exact absurd isCopied notCopied
  · rcases isAdded' with ⟨isCopied, -⟩ | ⟨-, rfl⟩
    · exact absurd isCopied notCopied
    · rfl

/-! ## The sheet -/

theorem extended_expandNodes (parent : Head) (file : Option String) (nodes : List Node) :
    Extended transform.IsAdded parent file nodes
      (transform.expandNodes parent.isKeyframes file nodes) := by
  induction nodes using forest_induction generalizing parent file with
  | nil => exact .nil
  | leaf source content rest ofRest => exact .leaf (ofRest parent file)
  | block source head settled children rest ofChildren ofRest =>
      cases head with
      | sheet => exact .block (by simp) (ofChildren .sheet source) (ofRest parent file)
      | atRule name params hasBlock =>
          exact .block (by simp) (ofChildren (.atRule name params hasBlock) source)
            (ofRest parent file)
      | rule selector =>
          rw [expandNodes, expandNode]
          exact .rule (ofChildren (.rule selector) source)
            (transform.isAdded_addedRule? parent file selector children) (ofRest parent file)

/-- Copying declarations with viewport units puts one rule right behind every rule that is
copied, its copy, and changes nothing else. -/
theorem apply_eq_iff (source : Option String) (head : Head) (settled : Bool)
    (children : List Node) (result : Node) :
    transform.apply (.block source head settled children) = result ↔
      ∃ after, result = .block source head settled after ∧
        Extended transform.IsAdded head source children after := by
  have extended := transform.extended_expandNodes head source children
  constructor
  · rintro rfl
    exact ⟨_, rfl, extended⟩
  · rintro ⟨after, rfl, isAfter⟩
    rw [apply, extended.unique transform.rightUnique_isAdded isAfter]

end UnitCopy

end ContainerPreview
