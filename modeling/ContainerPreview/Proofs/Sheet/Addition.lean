import ContainerPreview.Proofs.Sheet.Shape

/-!
# Trees with nodes put in

Nodes are put into a tree behind its blocks.  What holds of the declarations of a
node that is put in depends on where they are in it: in a rule, whether of the
node itself or below it, they are fit for the container, and elsewhere they need
not be, as in the rules directly in keyframes.  All declarations have in common
what it takes to make fit ones from them.

If what is put in is made of what was there, a tree into which nodes are put more
than once has only nodes of this kind put in.
-/

namespace ContainerPreview

/-! ## Zones -/

/-- Where nodes are: among the authored ones, or in a node that was put in, there
outside rules, directly in keyframes, or in a rule. -/
inductive Zone where
  | authored
  | outer
  | frames
  | inner
deriving DecidableEq, Repr

namespace Zone

/-- The zone of the children of a block. -/
def within : Zone → Head → Zone
  | .authored, _ => .authored
  | .inner, _ => .inner
  | .outer, .rule _ => .inner
  | .frames, .rule _ => .outer
  | .outer, head | .frames, head => if head.isKeyframes then .frames else .outer

/-- The zone of what is put in. -/
def added : Zone → Zone
  | .authored => .outer
  | zone => zone

@[simp]
theorem within_inner (head : Head) : within .inner head = .inner :=
  rfl

@[simp]
theorem within_rule (zone : Zone) (selector selector' : String) :
    zone.within (.rule selector') = zone.within (.rule selector) := by
  cases zone <;> rfl

/-- The zone of the children of a media or container block. -/
def inQuery : Zone → Zone
  | .authored => .authored
  | .outer | .frames => .outer
  | .inner => .inner

theorem within_media (zone : Zone) (params : String) (hasBlock : Bool) :
    zone.within (.atRule "media" params hasBlock) = zone.inQuery := by
  cases zone <;> simp [within, inQuery]

theorem within_container (zone : Zone) (params : String) (hasBlock : Bool) :
    zone.within (.atRule "container" params hasBlock) = zone.inQuery := by
  cases zone <;> simp [within, inQuery]

/-- Where a container block is put in, its children are in the zone of what is put in
among the children of the media block. -/
theorem inQuery_added (zone : Zone) : zone.added.inQuery = zone.inQuery.added := by
  cases zone <;> rfl

@[simp]
theorem inQuery_inQuery (zone : Zone) : zone.inQuery.inQuery = zone.inQuery := by
  cases zone <;> rfl

/-- Only in keyframes is a rule outside of all rules. -/
theorem within_ne_outer {zone : Zone} {head : Head} (isKeyframes : head.isKeyframes) :
    zone.within head ≠ .outer := by
  cases head with
  | sheet => cases isKeyframes
  | rule selector => cases isKeyframes
  | atRule name params hasBlock => cases zone <;> simp [within, isKeyframes]

/-- A block that is no rule is in a rule that was put in if its children are. -/
theorem eq_inner_of_within {zone : Zone} {head : Head} (noRule : ∀ selector, head ≠ .rule selector)
    (isInner : zone.within head = .inner) : zone = .inner := by
  cases head with
  | rule selector => exact absurd rfl (noRule selector)
  | sheet => cases zone <;> simp [within, Head.isKeyframes] at isInner ⊢
  | atRule name params hasBlock =>
      cases zone with
      | authored => cases isInner
      | outer =>
          simp only [within] at isInner
          split at isInner <;> cases isInner
      | frames =>
          simp only [within] at isInner
          split at isInner <;> cases isInner
      | inner => rfl

/-- So is a rule in keyframes. -/
theorem eq_inner_of_within_rule {zone : Zone} {selector : String} (notOuter : zone ≠ .outer)
    (isInner : zone.within (.rule selector) = .inner) : zone = .inner := by
  cases zone with
  | authored => cases isInner
  | outer => exact absurd rfl notOuter
  | frames => cases isInner
  | inner => rfl

/-- The zone of what is put in outside rules. -/
def outside (inKeyframes : Bool) : Zone :=
  if inKeyframes then .frames else .outer

/-- Below a block that is no rule, only its head tells where a node outside rules is. -/
theorem within_of_outside {zone : Zone} {inKeyframes : Bool} {head : Head}
    (noRule : ∀ selector, head ≠ .rule selector)
    (isZone : zone = .inner ∨ zone = outside inKeyframes) :
    zone.within head = .inner ∨ zone.within head = outside head.isKeyframes := by
  rcases isZone with rfl | rfl
  · exact .inl rfl
  · cases head with
    | rule selector => exact absurd rfl (noRule selector)
    | sheet => cases inKeyframes <;> exact .inr rfl
    | atRule name params hasBlock => cases inKeyframes <;> exact .inr rfl

end Zone

/-! ## Declarations by zone -/

theorem mem_declarationsIn_leaf {source : Option String} {content : Leaf} {rest : List Node}
    {declaration : Declaration} :
    declaration ∈ declarationsIn (.leaf source content :: rest) ↔
      content = .declaration declaration ∨ declaration ∈ declarationsIn rest := by
  cases content <;> simp [declarationsIn, Node.declaration?, eq_comm]

theorem declarationsIn_block {source : Option String} {head : Head} {settled : Bool}
    {children rest : List Node} :
    declarationsIn (.block source head settled children :: rest) =
      declarationsIn children ++ declarationsIn rest := by
  rw [declarationsIn, descendantsIn_block, List.filterMap_cons_none rfl, List.filterMap_append]
  rfl

/-- The declarations of the nodes are plain ones, and fit where they are in a rule
that was put in. -/
inductive Holds (plain fit : Declaration → Prop) : Zone → List Node → Prop
  | nil {zone : Zone} : Holds plain fit zone []
  | leaf {zone : Zone} {source : Option String} {content : Leaf} {rest : List Node}
      (ofLeaf : ∀ declaration, content = .declaration declaration →
        plain declaration ∧ (zone = .inner → fit declaration))
      (ofRest : Holds plain fit zone rest) :
      Holds plain fit zone (.leaf source content :: rest)
  | block {zone : Zone} {source : Option String} {head : Head} {settled : Bool}
      {children rest : List Node} (ofChildren : Holds plain fit (zone.within head) children)
      (ofRest : Holds plain fit zone rest) :
      Holds plain fit zone (.block source head settled children :: rest)

namespace Holds

variable {plain fit : Declaration → Prop} {zone : Zone} {left right nodes : List Node}

theorem append_iff :
    Holds plain fit zone (left ++ right) ↔
      Holds plain fit zone left ∧ Holds plain fit zone right := by
  induction left with
  | nil => exact ⟨fun ofRight => ⟨nil, ofRight⟩, And.right⟩
  | cons node left inductionHypothesis =>
      constructor
      · intro holds
        cases holds with
        | leaf ofLeaf ofRest =>
            obtain ⟨ofLeft, ofRight⟩ := inductionHypothesis.mp ofRest
            exact ⟨leaf ofLeaf ofLeft, ofRight⟩
        | block ofChildren ofRest =>
            obtain ⟨ofLeft, ofRight⟩ := inductionHypothesis.mp ofRest
            exact ⟨block ofChildren ofLeft, ofRight⟩
      · rintro ⟨ofLeft, ofRight⟩
        cases ofLeft with
        | leaf ofLeaf ofRest => exact leaf ofLeaf (inductionHypothesis.mpr ⟨ofRest, ofRight⟩)
        | block ofChildren ofRest =>
            exact block ofChildren (inductionHypothesis.mpr ⟨ofRest, ofRight⟩)

theorem partwise : Partwise (Holds plain fit zone) :=
  ⟨nil, append_iff⟩

/-- A leaf holds in another zone unless only that one is in a rule. -/
theorem leafIn {zone' : Zone} {source : Option String} {content : Leaf}
    (ofInner : zone' = .inner → zone = .inner)
    (ofLeaf : ∀ declaration, content = .declaration declaration →
      plain declaration ∧ (zone = .inner → fit declaration))
    (ofRest : Holds plain fit zone' nodes) :
    Holds plain fit zone' (.leaf source content :: nodes) := by
  refine leaf (fun declaration isContent => ?_) ofRest
  obtain ⟨isPlain, isFit⟩ := ofLeaf declaration isContent
  exact ⟨isPlain, fun isInner => isFit (ofInner isInner)⟩

theorem cons_iff {node : Node} :
    Holds plain fit zone (node :: nodes) ↔
      Holds plain fit zone [node] ∧ Holds plain fit zone nodes := by
  rw [← List.singleton_append, append_iff]

theorem block_iff {source : Option String} {head : Head} {settled : Bool} {children : List Node} :
    Holds plain fit zone [.block source head settled children] ↔
      Holds plain fit (zone.within head) children := by
  constructor
  · intro holds
    cases holds with
    | block ofChildren _ => exact ofChildren
  · exact fun ofChildren => block ofChildren nil

/-- What holds in a rule that was put in holds everywhere. -/
theorem of_inner (holds : Holds plain fit .inner nodes) (zone : Zone) :
    Holds plain fit zone nodes := by
  induction nodes using forest_induction generalizing zone with
  | nil => exact nil
  | leaf source content rest ofRest =>
      cases holds with
      | leaf ofLeaf restHolds => exact leafIn (fun _ => rfl) ofLeaf (ofRest restHolds zone)
  | block source head settled children rest ofChildren ofRest =>
      cases holds with
      | block childrenHold restHolds =>
          exact block (ofChildren childrenHold _) (ofRest restHolds zone)

/-- What holds anywhere holds among authored nodes. -/
theorem authored (holds : Holds plain fit zone nodes) : Holds plain fit .authored nodes := by
  induction nodes using forest_induction generalizing zone with
  | nil => exact nil
  | leaf source content rest ofRest =>
      cases holds with
      | leaf ofLeaf restHolds =>
          exact leafIn (fun isInner => by cases isInner) ofLeaf (ofRest restHolds)
  | block source head settled children rest ofChildren ofRest =>
      cases holds with
      | block childrenHold restHolds => exact block (ofChildren childrenHold) (ofRest restHolds)

/-- Authored nodes of plain declarations hold. -/
theorem of_declarations (plainAll : ∀ declaration ∈ declarationsIn nodes, plain declaration) :
    Holds plain fit .authored nodes := by
  induction nodes using forest_induction with
  | nil => exact nil
  | leaf source content rest ofRest =>
      simp only [mem_declarationsIn_leaf] at plainAll
      refine leaf (fun declaration isOwn => ?_) (ofRest fun _ member => plainAll _ (.inr member))
      exact ⟨plainAll declaration (.inl isOwn), fun isInner => by cases isInner⟩
  | block source head settled children rest ofChildren ofRest =>
      rw [declarationsIn_block, List.forall_mem_append] at plainAll
      exact block (ofChildren plainAll.1) (ofRest plainAll.2)

/-- The declarations of nodes in a rule that was put in fit. -/
theorem fit_of_mem (holds : Holds plain fit .inner nodes) :
    ∀ declaration ∈ declarationsIn nodes, fit declaration := by
  induction nodes using forest_induction with
  | nil => simp [declarationsIn]
  | leaf source content rest ofRest =>
      cases holds with
      | leaf ofLeaf restHolds =>
          intro declaration member
          rcases mem_declarationsIn_leaf.mp member with isOwn | later
          · exact (ofLeaf declaration isOwn).2 rfl
          · exact ofRest restHolds declaration later
  | block source head settled children rest ofChildren ofRest =>
      cases holds with
      | block childrenHold restHolds =>
          rw [declarationsIn_block, List.forall_mem_append]
          exact ⟨ofChildren childrenHold, ofRest restHolds⟩

/-! ## Copies and marks -/

theorem copyInto (holds : Holds plain fit zone nodes) (file : Option String) :
    Holds plain fit zone (copyInto file nodes) := by
  induction nodes using forest_induction generalizing zone file with
  | nil => exact nil
  | leaf source content rest ofRest =>
      cases holds with
      | leaf ofLeaf restHolds => exact leaf ofLeaf (ofRest restHolds file)
  | block source head settled children rest ofChildren ofRest =>
      cases holds with
      | block childrenHold restHolds =>
          exact block (ofChildren childrenHold source) (ofRest restHolds file)

theorem copy {node : Node} (holds : Holds plain fit zone [node]) :
    Holds plain fit zone [node.copy] := by
  have copied := holds.copyInto none
  cases node with
  | leaf source content =>
      cases copied with
      | leaf ofLeaf => exact leaf ofLeaf nil
  | block source head settled children =>
      cases copied with
      | block ofChildren => exact block ofChildren nil

theorem inherit (holds : Holds plain fit zone nodes) (file : Option String) :
    Holds plain fit zone (nodes.map (Node.inherit file)) := by
  induction holds with
  | nil => exact nil
  | leaf ofLeaf _ ofRest => exact leaf ofLeaf ofRest
  | block ofChildren _ _ ofRest => exact block ofChildren ofRest

theorem clearMarksIn (holds : Holds plain fit zone nodes) :
    Holds plain fit zone (clearMarksIn nodes) := by
  induction nodes using forest_induction generalizing zone with
  | nil => exact nil
  | leaf source content rest ofRest =>
      cases holds with
      | leaf ofLeaf restHolds => exact leaf ofLeaf (ofRest restHolds)
  | block source head settled children rest ofChildren ofRest =>
      cases holds with
      | block childrenHold restHolds => exact block (ofChildren childrenHold) (ofRest restHolds)

end Holds

/-! ## Nodes put in -/

/-- A block keeps its head, except that a rule may get another selector list. -/
inductive Head.Kept : Head → Head → Prop
  | same (head : Head) : Kept head head
  | rescoped (selector selector' : String) : Kept (.rule selector) (.rule selector')

namespace Head.Kept

variable {head head' head'' : Head}

theorem trans (first : Kept head head') (second : Kept head' head'') : Kept head head'' := by
  cases first with
  | same => exact second
  | rescoped selector selector' =>
      cases second with
      | same => exact rescoped selector selector'
      | rescoped _ selector'' => exact rescoped selector selector''

theorem within (kept : Kept head head') (zone : Zone) : zone.within head' = zone.within head := by
  cases kept with
  | same => rfl
  | rescoped => exact zone.within_rule _ _

end Head.Kept

/-- The nodes `before` with nodes put in behind blocks.  The blocks that were there
keep their places and their heads, and all leaves stay.  What may be put in behind a
block is told by `made`. -/
inductive Adds (made : Node → List Node → Prop) : List Node → List Node → Prop
  | nil : Adds made [] []
  | leaf {source : Option String} {content : Leaf} {before after : List Node}
      (ofRest : Adds made before after) :
      Adds made (.leaf source content :: before) (.leaf source content :: after)
  | block {source : Option String} {head head' : Head} {settled settled' : Bool}
      {children children' added before after : List Node} (kept : head.Kept head')
      (ofChildren : Adds made children children')
      (isMade : made (.block source head settled children) added)
      (ofRest : Adds made before after) :
      Adds made (.block source head settled children :: before)
        (.block source head' settled' children' :: (added ++ after))

/-- Nodes made of what is in a block: they hold, as nodes that were put in, where the
block holds. -/
def MadeOf (plain fit : Declaration → Prop) (block : Node) (added : List Node) : Prop :=
  ∀ zone, Holds plain fit zone [block] → Holds plain fit zone.added added

theorem MadeOf.nil {plain fit : Declaration → Prop} (block : Node) : MadeOf plain fit block [] :=
  fun _ _ => .nil

namespace Adds

variable {made : Node → List Node → Prop} {plain fit : Declaration → Prop}
  {before between after left left' right right' : List Node}

theorem blockAlone {source : Option String} {head head' : Head} {settled settled' : Bool}
    {children children' : List Node} (none : ∀ block, made block []) (kept : head.Kept head')
    (ofChildren : Adds made children children') (ofRest : Adds made before after) :
    Adds made (.block source head settled children :: before)
      (.block source head' settled' children' :: after) := by
  show Adds made _ (_ :: ([] ++ after))
  exact block kept ofChildren (none _) ofRest

theorem refl (none : ∀ block, made block []) (nodes : List Node) : Adds made nodes nodes := by
  induction nodes using forest_induction with
  | nil => exact nil
  | leaf source content rest ofRest => exact leaf ofRest
  | block source head settled children rest ofChildren ofRest =>
      exact blockAlone none (.same head) ofChildren ofRest

theorem append (ofLeft : Adds made left left') (ofRight : Adds made right right') :
    Adds made (left ++ right) (left' ++ right') := by
  induction ofLeft with
  | nil => exact ofRight
  | leaf _ inductionHypothesis => exact leaf inductionHypothesis
  | block kept ofChildren isMade _ _ inductionHypothesis =>
      rw [List.cons_append, List.cons_append, List.append_assoc]
      exact block kept ofChildren isMade inductionHypothesis

/-- What two lists together become divides into what each becomes. -/
theorem exists_of_append (adds : Adds made (left ++ right) after) :
    ∃ left' right', after = left' ++ right' ∧ Adds made left left' ∧ Adds made right right' := by
  induction left generalizing after with
  | nil => exact ⟨[], after, rfl, nil, adds⟩
  | cons node rest inductionHypothesis =>
      cases adds with
      | leaf ofRest =>
          obtain ⟨left', right', rfl, ofLeft, ofRight⟩ := inductionHypothesis ofRest
          exact ⟨_, right', rfl, leaf ofLeft, ofRight⟩
      | @block source _ head' _ settled' _ children' added _ _ kept ofChildren isMade ofRest =>
          obtain ⟨left', right', rfl, ofLeft, ofRight⟩ := inductionHypothesis ofRest
          refine ⟨.block source head' settled' children' :: (added ++ left'), right', ?_,
            block kept ofChildren isMade ofLeft, ofRight⟩
          rw [List.cons_append, List.append_assoc]

/-- Nodes that are made of what is there hold where it does. -/
theorem holds {zone : Zone} (adds : Adds (MadeOf plain fit) before after)
    (ofBefore : Holds plain fit zone before) : Holds plain fit zone after := by
  induction adds generalizing zone with
  | nil => exact .nil
  | leaf _ inductionHypothesis =>
      cases ofBefore with
      | leaf ofLeaf ofRest => exact .leaf ofLeaf (inductionHypothesis ofRest)
  | @block _ _ head' _ _ _ children' _ _ _ kept _ isMade _ ofChildren inductionHypothesis =>
      cases ofBefore with
      | block childrenHold restHold =>
          have addedHold := isMade zone (Holds.block_iff.mpr childrenHold)
          have isWithin : Holds plain fit (zone.within head') children' := by
            rw [kept.within]
            exact ofChildren childrenHold
          refine .block isWithin (Holds.append_iff.mpr ⟨?_, inductionHypothesis restHold⟩)
          cases zone with
          | authored => exact addedHold.authored
          | outer => exact addedHold
          | frames => exact addedHold
          | inner => exact addedHold

/-- Nodes put in behind a block, and what is put in later behind it and among them. -/
theorem madeOf_append {source : Option String} {head head' : Head} {settled settled' : Bool}
    {children children' added added' later : List Node} (kept : head.Kept head')
    (ofChildren : Adds (MadeOf plain fit) children children')
    (isMade : MadeOf plain fit (.block source head settled children) added)
    (laterMade : MadeOf plain fit (.block source head' settled' children') later)
    (ofAdded : Adds (MadeOf plain fit) added added') :
    MadeOf plain fit (.block source head settled children) (later ++ added') := by
  intro zone ofBlock
  have ofKept : Holds plain fit zone [.block source head' settled' children'] := by
    rw [Holds.block_iff, kept.within]
    exact ofChildren.holds (Holds.block_iff.mp ofBlock)
  exact Holds.append_iff.mpr ⟨laterMade zone ofKept, ofAdded.holds (isMade zone ofBlock)⟩

theorem trans (first : Adds (MadeOf plain fit) before between)
    (second : Adds (MadeOf plain fit) between after) : Adds (MadeOf plain fit) before after := by
  induction first generalizing after with
  | nil => exact second
  | leaf _ inductionHypothesis =>
      cases second with
      | leaf ofRest => exact leaf (inductionHypothesis ofRest)
  | block kept childrenAdd isMade _ ofChildren inductionHypothesis =>
      cases second with
      | block kept' ofChildren' laterMade ofRest' =>
          obtain ⟨added', later, rfl, ofAdded, ofRest⟩ := exists_of_append ofRest'
          rw [← List.append_assoc]
          exact block (kept.trans kept') (ofChildren ofChildren')
            (madeOf_append kept childrenAdd isMade laterMade ofAdded) (inductionHypothesis ofRest)

/-- What is put in holds as such, if it is made of what is there and all that holds. -/
theorem of_holds (adds : Adds (MadeOf plain fit) before after)
    (ofBefore : Holds plain fit .authored before) :
    Adds (fun _ added => Holds plain fit .outer added) before after := by
  induction adds with
  | nil => exact nil
  | leaf _ inductionHypothesis =>
      cases ofBefore with
      | leaf _ ofRest => exact leaf (inductionHypothesis ofRest)
  | block kept _ isMade _ ofChildren inductionHypothesis =>
      cases ofBefore with
      | block childrenHold restHold =>
          exact block kept (ofChildren childrenHold)
            (isMade .authored (Holds.block_iff.mpr childrenHold)) (inductionHypothesis restHold)

/-- Marks on the nodes before count for nothing, nor do those on the nodes after, if they
do not for what may be put in. -/
theorem of_clearMarksIn {isAdded isAdded' : List Node → Prop}
    (unmarked : ∀ added, isAdded added → isAdded' (clearMarksIn added)) {original : List Node}
    (adds : Adds (fun _ => isAdded) (clearMarksIn original) after) :
    Adds (fun _ => isAdded') original (clearMarksIn after) := by
  induction original using forest_induction generalizing after with
  | nil =>
      cases adds with
      | nil => exact nil
  | leaf source content rest ofRest =>
      rw [clearMarksIn, Node.clearMarks] at adds
      cases adds with
      | leaf restAdds => exact leaf (ofRest restAdds)
  | block source head settled children rest ofChildren ofRest =>
      rw [clearMarksIn, Node.clearMarks] at adds
      cases adds with
      | block kept childrenAdd isMade restAdds =>
          rw [clearMarksIn, Node.clearMarks, clearMarksIn_append]
          exact block kept (ofChildren childrenAdd) (unmarked _ isMade) (ofRest restAdds)

end Adds

end ContainerPreview
