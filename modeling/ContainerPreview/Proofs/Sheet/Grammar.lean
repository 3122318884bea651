import ContainerPreview.Proofs.Forest.Planted
import ContainerPreview.Proofs.Sheet.Declared
import ContainerPreview.Proofs.Sheet.Derivation

/-!
# The grammar of sheets that have been read

What stands in a sheet or in a list of rules is a rule, an at-rule or a comment; what stands in a
rule is a declaration, an at-rule or a comment.  The block of an at-rule is of the one or the other
kind, which its name decides.  Names are in lower case, but for those of custom properties.

Whatever text a sheet has been read from, its nodes are of this shape, come from the given file,
and are linked to each other as a tree.  Reading keeps that what is begun can become an entry of
the list that it is begun in.
-/

namespace ContainerPreview

open Css Text

/-- The text has no capital letter of ASCII. -/
def IsLowerAscii (text : String) : Prop :=
  ∀ c ∈ text.toList, c.isUpper = false

/-- The property is a custom one. -/
def Declaration.isCustom (declaration : Declaration) : Prop :=
  "--".toList <+: declaration.property.toList

namespace Node

/-- The node is a comment. -/
def isComment : Node → Bool
  | .leaf _ (.comment _) => true
  | _ => false

/-- The node can stand in a list of rules. -/
def isRuleEntry (node : Node) : Bool :=
  node.isRule || node.isAtRule || node.isComment

/-- The node can stand in a list of declarations. -/
def isDeclarationEntry (node : Node) : Bool :=
  node.declaration?.isSome || node.isAtRule || node.isComment

/-- The node has the names and the children that the grammar allows. -/
def IsGrammatical : Node → Prop
  | .leaf _ (.comment _) => True
  | .leaf _ (.declaration declaration) => declaration.isCustom ∨ IsLowerAscii declaration.property
  | .block _ .sheet _ children => ∀ child ∈ children, child.isRuleEntry
  | .block _ (.rule _) _ children => ∀ child ∈ children, child.isDeclarationEntry
  | .block _ (.atRule name _ false) _ children => IsLowerAscii name ∧ children = []
  | .block _ (.atRule name _ true) _ children =>
      IsLowerAscii name ∧
        if name ∈ ruleListAtRules then ∀ child ∈ children, child.isRuleEntry
        else ∀ child ∈ children, child.isDeclarationEntry

/-- The node can stand in a list that is read as the given kind. -/
def isEntryOf (kind : ListKind) (node : Node) : Bool :=
  match kind with
  | .declarations => node.isDeclarationEntry
  | .sheet | .rules => node.isRuleEntry

/-- The node is below a sheet that has been read from the given file. -/
structure IsReadFrom (file : Option String) (node : Node) : Prop where
  source : node.source = file
  unmarked : node.isSettled = false
  notSheet : node.head? ≠ some .sheet
  grammatical : node.IsGrammatical

end Node

variable {kind : ListKind} {source : Option String}

/-! ## Names -/

theorem isUpper_toLower (c : Char) : c.toLower.isUpper = false := by
  by_cases ascii : c.toNat < 128
  · exact forall_ascii (fun c => c.toLower.isUpper = false) (by decide) ascii
  · have notUpper : ¬(c.val ≥ 'A'.val ∧ c.val ≤ 'Z'.val) := by
      rintro ⟨-, atMost⟩
      exact ascii (Nat.lt_of_le_of_lt (UInt32.le_iff_toNat_le.mp atMost) (by decide))
    rw [toLower_of_not_ascii ascii]
    exact decide_eq_false notUpper

theorem isLowerAscii_lowerAscii (name : List Char) :
    IsLowerAscii (String.ofList (lowerAscii name)) := by
  intro c member
  rw [String.toList_ofList] at member
  obtain ⟨other, -, rfl⟩ := List.mem_map.mp member
  exact isUpper_toLower other

theorem custom_or_isLowerAscii_propertyName (name : List Char) :
    "--".toList <+: (propertyName name).toList ∨ IsLowerAscii (propertyName name) := by
  by_cases custom : ∃ rest, name = '-' :: '-' :: rest
  · obtain ⟨rest, rfl⟩ := custom
    have isName : (propertyName ('-' :: '-' :: rest)).toList = '-' :: '-' :: rest :=
      String.toList_ofList
    exact .inl ⟨rest, isName.symm⟩
  · rw [propertyName_of_not_custom (not_exists.mp custom)]
    exact .inr (isLowerAscii_lowerAscii name)

/-! ## Entries -/

/-- The nodes are entries of a list that has been read. -/
structure AreEntries (kind : ListKind) (source : Option String) (nodes : List Node) : Prop where
  entries : ∀ node ∈ nodes, node.isEntryOf kind
  areRead : ∀ node ∈ descendantsIn nodes, node.IsReadFrom source

namespace AreEntries

theorem nil : AreEntries kind source [] :=
  ⟨List.forall_mem_nil _, List.forall_mem_nil _⟩

theorem append {left right : List Node} (ofLeft : AreEntries kind source left)
    (ofRight : AreEntries kind source right) : AreEntries kind source (left ++ right) :=
  ⟨List.forall_mem_append.mpr ⟨ofLeft.entries, ofRight.entries⟩,
    forall_descendantsIn_append.mpr ⟨ofLeft.areRead, ofRight.areRead⟩⟩

theorem leaf {content : Leaf} (isEntry : (Node.leaf source content).isEntryOf kind)
    (grammatical : (Node.leaf source content).IsGrammatical) :
    AreEntries kind source [.leaf source content] :=
  ⟨List.forall_mem_singleton.mpr isEntry,
    forall_descendantsIn_leaf.mpr ⟨⟨rfl, rfl, (Option.some_ne_none _).symm, grammatical⟩,
      List.forall_mem_nil _⟩⟩

theorem block {inner : ListKind} {head : Head} {children : List Node}
    (isEntry : (Node.block source head false children).isEntryOf kind) (notSheet : head ≠ .sheet)
    (grammatical : (Node.block source head false children).IsGrammatical)
    (ofChildren : AreEntries inner source children) :
    AreEntries kind source [.block source head false children] :=
  ⟨List.forall_mem_singleton.mpr isEntry,
    forall_descendantsIn_block.mpr
      ⟨⟨rfl, rfl, fun isSheet => notSheet (Option.some.inj isSheet), grammatical⟩,
        ofChildren.areRead, List.forall_mem_nil _⟩⟩

theorem comment (text : String) : AreEntries kind source [.leaf source (.comment text)] :=
  .leaf (by cases kind <;> rfl) trivial

end AreEntries

/-! ## What is begun -/

namespace Begun

/-- What is begun can become an entry of a list of the given kind. -/
def Fits (kind : ListKind) : Begun → Prop
  | .nothing => True
  | .atRule name _ => IsLowerAscii name
  | .rule _ _ => kind ≠ .declarations
  | .declaration _ _ => kind = .declarations

theorem Fits.push {begun : Begun} (fits : begun.Fits kind) (token : Token) :
    (begun.push token).Fits kind := by
  cases begun <;> exact fits

end Begun

theorem fits_nothing (kind : ListKind) : Begun.nothing.Fits kind :=
  trivial

theorem fits_begins (kind : ListKind) (token : Token) : (kind.begins token).Fits kind := by
  unfold ListKind.begins
  split
  · rename_i name
    exact isLowerAscii_lowerAscii name
  · cases kind
    · exact ListKind.noConfusion
    · exact ListKind.noConfusion
    · rfl

/-- What is begun becomes an entry where it ends. -/
theorem Ends.areEntries {begun : Begun} {entries : List Node} (ends : Ends source begun entries)
    (fits : begun.Fits kind) : AreEntries kind source entries := by
  cases ends with
  | nothing => exact .nil
  | atRule name prelude =>
      have ofChildren : AreEntries kind source [] := .nil
      exact .block (by cases kind <;> rfl) Head.noConfusion ⟨fits, rfl⟩ ofChildren
  | declaration isRead =>
      obtain rfl : kind = .declarations := fits
      obtain ⟨_, name, _, _, _, -, -, -, -, rfl⟩ := readDeclaration_ok isRead
      exact .leaf rfl (custom_or_isLowerAscii_propertyName name)

/-- A block of what is begun is an entry, and its content is read as its head demands. -/
theorem Heads.areEntries {begun : Begun} {head : Head} {inner : ListKind} {children : List Node}
    (heads : Heads kind begun head inner) (fits : begun.Fits kind)
    (ofChildren : AreEntries inner source children) :
    AreEntries kind source [.block source head false children] := by
  cases heads with
  | nameless isKind =>
      exact .block (by cases kind <;> first | rfl | exact absurd rfl isKind) Head.noConfusion
        ofChildren.entries ofChildren
  | atRule name prelude =>
      refine .block (by cases kind <;> rfl) Head.noConfusion ⟨fits, ?_⟩ ofChildren
      have entries := ofChildren.entries
      simp only [ListKind.ofAtRule, List.contains_iff_mem] at entries
      split
      · rename_i isRuleList
        rwa [if_pos isRuleList] at entries
      · rename_i notRuleList
        rwa [if_neg notRuleList] at entries
  | rule last prelude =>
      exact .block (by cases kind <;> first | rfl | exact absurd rfl fits) Head.noConfusion
        ofChildren.entries ofChildren

/-- One more token leaves something begun that fits, and what it ends are entries. -/
theorem TokenStep.fits {begun after : Begun} {token : Token} {entries : List Node}
    (step : TokenStep kind source begun token after entries) (fits : begun.Fits kind) :
    after.Fits kind ∧ AreEntries kind source entries := by
  cases step with
  | comment position text => exact ⟨fits_nothing kind, .comment _⟩
  | skip => exact ⟨fits_nothing kind, .nil⟩
  | start => exact ⟨fits_begins kind token, .nil⟩
  | finish ends => exact ⟨fits_nothing kind, ends.areEntries fits⟩
  | goOn => exact ⟨fits.push token, .nil⟩

/-! ## Lists -/

/-- What is read from tokens are entries of the list. -/
theorem Reads.areEntries {begun : Begun} {tokens : List Token} {nodes : List Node}
    (reads : Reads source kind begun tokens nodes) (fits : begun.Fits kind) :
    AreEntries kind source nodes := by
  induction reads with
  | ended ends => exact ends.areEntries fits
  | @block kind inner begun head position content rest children later heads _ _ ofContent ofRest =>
      exact (heads.areEntries fits (ofContent (fits_nothing inner))).append
        (ofRest (fits_nothing kind))
  | token step _ ofRest =>
      obtain ⟨fits, areEntries⟩ := step.fits fits
      exact areEntries.append (ofRest fits)

/-- A sheet that has been read is one sheet, all of whose nodes come from the given file and are of
the shape that the grammar demands.  Put into a forest, they are linked to each other as its
tree. -/
theorem readSheet_grammatical {text : String} {source : Option String} {sheet : Node}
    (isRead : readSheet text source = .ok sheet) :
    sheet.head? = some .sheet ∧
      (∀ node ∈ sheet.descendants, node.head? ≠ some .sheet) ∧
      (∀ node ∈ sheet :: sheet.descendants, node.source = source ∧ node.IsGrammatical) ∧
      ∀ forest, Forest.WellLinked forest → ∃ id forest',
        (Forest.plant sheet).apply forest = (.ok id, forest') ∧
          Forest.Grown forest forest' [id] [sheet] := by
  rw [readSheet] at isRead
  cases isContent : readList .sheet source .nothing (tokens text.toList) with
  | error => rw [isContent] at isRead; cases isRead
  | ok children =>
      rw [isContent] at isRead
      cases isRead
      have ofChildren := (reads_of_readList isContent).areEntries (fits_nothing .sheet)
      have ofFile : ∀ node ∈ (Node.block source .sheet false children) :: descendantsIn children,
          node.source = source := List.forall_mem_cons.mpr
        ⟨rfl, fun node member => (ofChildren.areRead node member).source⟩
      have unmarked : ∀ node ∈ (Node.block source .sheet false children) :: descendantsIn children,
          node.isSettled = false := List.forall_mem_cons.mpr
        ⟨rfl, fun node member => (ofChildren.areRead node member).unmarked⟩
      refine ⟨rfl, fun node member => (ofChildren.areRead node member).notSheet,
        List.forall_mem_cons.mpr ⟨⟨rfl, ofChildren.entries⟩, fun node member => ?_⟩,
        fun forest linked => ?_⟩
      · have readNode := ofChildren.areRead node member
        exact ⟨readNode.source, readNode.grammatical⟩
      · obtain ⟨id, forest', planted, grown⟩ :=
          Forest.exists_grown_plant (.block source .sheet false children) linked
        rw [Node.copy_eq_self ofFile unmarked] at grown
        exact ⟨id, forest', planted, grown⟩

/-- A sheet with a list of rules in which a rule holds an at-rule with declarations. -/
def nestedSheet : Node :=
  let file := some "a.css"
  .block file .sheet false
    [.block file (.atRule "media" "print" true) false
      [.block file (.rule "A") false
        [.leaf file (.declaration ⟨"color", "RED", false⟩),
          .leaf file (.declaration ⟨"--X", "1", true⟩),
          .block file (.atRule "foo" "" true) false [.leaf file (.declaration ⟨"b", "c", false⟩)]],
        .leaf file (.comment "d")],
      .block file (.atRule "import" "x" false) false []]

/-- A text from which it is read. -/
def nestedText : String :=
  "@MEDIA print\x7bA\x7bCOLOR:RED;--X:1!important;@Foo\x7bb:c\x7d\x7d/*d*/\x7d@import x;"

theorem readSheet_grammatical_nestedSheet :
    readSheet nestedText (some "a.css") = .ok nestedSheet ∧
      (∀ node ∈ nestedSheet :: nestedSheet.descendants,
        node.source = some "a.css" ∧ node.IsGrammatical) ∧
      ∃ id forest', (Forest.plant nestedSheet).apply {} = (.ok id, forest') ∧
        Forest.Grown {} forest' [id] [nestedSheet] :=
  have isRead : readSheet nestedText (some "a.css") = .ok nestedSheet := by decide +kernel
  have grammatical := readSheet_grammatical isRead
  ⟨isRead, grammatical.2.2.1, grammatical.2.2.2 {} Forest.wellLinked_empty⟩

end ContainerPreview
