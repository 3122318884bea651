import ContainerPreview.Proofs.Sheet.Height

/-!
# Trees that differ in files only

Two trees are alike if they are the same but for the files that their nodes come
from.  What is asked of the files of two rules in the same place is left open:
with nothing asked, alike trees are those that are written in the same way; with
files asked to be the same and of some kind, a tree is alike itself if all its
rules come from files of that kind.

Whatever is computed without a look at files makes alike trees out of alike
trees.  This is shown here for copying, for marks and for what is read off a
tree.
-/

namespace ContainerPreview

/-- Two lists of nodes are the same but for files, and the files of any two
rules in the same place are related. -/
inductive Alike (related : Option String → Option String → Prop) :
    List Node → List Node → Prop
  | nil : Alike related [] []
  | leaf {source source' : Option String} {content : Leaf} {rest rest' : List Node}
      (ofRest : Alike related rest rest') :
      Alike related (.leaf source content :: rest) (.leaf source' content :: rest')
  | block {source source' : Option String} {head : Head} {settled : Bool}
      {children children' rest rest' : List Node}
      (ofRule : ∀ selector, head = .rule selector → related source source')
      (ofChildren : Alike related children children') (ofRest : Alike related rest rest') :
      Alike related (.block source head settled children :: rest)
        (.block source' head settled children' :: rest')

/-- Related files stay related when they are put in front of others. -/
def FilesPersist (related : Option String → Option String → Prop) : Prop :=
  ∀ source source', related source source' →
    ∀ file file', related (source.or file) (source'.or file')

/-- Two lists of nodes are written in the same way: they are the same but for
files. -/
abbrev SameText : List Node → List Node → Prop :=
  Alike fun _ _ => True

theorem filesPersist_true : FilesPersist fun _ _ => True :=
  fun _ _ _ _ _ => trivial

namespace Alike

variable {related : Option String → Option String → Prop} {source source' : Option String}
  {selector : String} {head : Head} {settled : Bool} {node node' : Node}
  {children children' nodes nodes' left left' right right' : List Node}

/-! ## Building lists -/

/-- A rule and another one, with the same selector list. -/
theorem rule (sources : related source source') (ofChildren : Alike related children children')
    (ofRest : Alike related right right') :
    Alike related (.block source (.rule selector) settled children :: right)
      (.block source' (.rule selector) settled children' :: right') :=
  block (fun _ _ => sources) ofChildren ofRest

/-- Two blocks that are no rules, with the same head. -/
theorem other (noRule : ∀ selector, head ≠ .rule selector)
    (ofChildren : Alike related children children') (ofRest : Alike related right right') :
    Alike related (.block source head settled children :: right)
      (.block source' head settled children' :: right') :=
  block (fun selector isRule => absurd isRule (noRule selector)) ofChildren ofRest

theorem append (ofLeft : Alike related left left') (ofRight : Alike related right right') :
    Alike related (left ++ right) (left' ++ right') := by
  induction ofLeft with
  | nil => exact ofRight
  | leaf _ inductionHypothesis => exact leaf inductionHypothesis
  | block ofRule ofChildren _ _ inductionHypothesis =>
      exact block ofRule ofChildren inductionHypothesis

theorem cons (ofNode : Alike related [node] [node']) (ofRest : Alike related nodes nodes') :
    Alike related (node :: nodes) (node' :: nodes') :=
  append ofNode ofRest

theorem exists_of_cons (alike : Alike related (node :: nodes) nodes') :
    ∃ first rest, nodes' = first :: rest ∧ Alike related [node] [first] ∧
      Alike related nodes rest := by
  cases alike with
  | leaf ofRest => exact ⟨_, _, rfl, leaf nil, ofRest⟩
  | block ofRule ofChildren ofRest => exact ⟨_, _, rfl, block ofRule ofChildren nil, ofRest⟩

/-- Lists that are alike are built from nodes that are alike. -/
theorem nodes_induction
    {motive : (nodes nodes' : List Node) → Alike related nodes nodes' → Prop}
    (nil : motive [] [] nil)
    (cons : ∀ {node node' rest rest'} (ofNode : Alike related [node] [node'])
      (ofRest : Alike related rest rest'), motive rest rest' ofRest →
        motive (node :: rest) (node' :: rest') (ofNode.cons ofRest)) :
    ∀ {nodes nodes'} (alike : Alike related nodes nodes'), motive nodes nodes' alike := by
  intro nodes nodes' alike
  induction alike with
  | nil => exact nil
  | leaf ofRest inductionHypothesis => exact cons (.leaf .nil) ofRest inductionHypothesis
  | block ofRule ofChildren ofRest _ inductionHypothesis =>
      exact cons (.block ofRule ofChildren .nil) ofRest inductionHypothesis

/-- If alike nodes become alike lists of nodes, so do lists of them. -/
theorem flatMap {change change' : Node → List Node} (alike : Alike related nodes nodes')
    (ofNode : ∀ {node node'}, Alike related [node] [node'] →
      Alike related (change node) (change' node')) :
    Alike related (nodes.flatMap change) (nodes'.flatMap change') := by
  induction alike using nodes_induction with
  | nil => exact nil
  | cons nodeAlike _ inductionHypothesis => exact (ofNode nodeAlike).append inductionHypothesis

/-- If alike nodes become alike nodes, so do lists of them. -/
theorem map {change change' : Node → Node} (alike : Alike related nodes nodes')
    (ofNode : ∀ {node node'}, Alike related [node] [node'] →
      Alike related [change node] [change' node']) :
    Alike related (nodes.map change) (nodes'.map change') := by
  rw [List.map_eq_flatMap, List.map_eq_flatMap]
  exact alike.flatMap ofNode

/-- A tree is alike itself if the file of every rule in it is related to
itself. -/
theorem self (ofRules : ∀ node ∈ descendantsIn nodes, node.isRule → related node.source node.source) :
    Alike related nodes nodes := by
  induction nodes using forest_induction with
  | nil => exact nil
  | leaf source content rest ofRest =>
      exact leaf (ofRest (forall_descendantsIn_leaf.mp ofRules).2)
  | block source head settled children rest ofChildren ofRest =>
      rcases forall_descendantsIn_block.mp ofRules with ⟨here, below, later⟩
      refine block ?_ (ofChildren below) (ofRest later)
      rintro selector rfl
      exact here rfl

/-! ## What is read off a tree -/

/-- The rules of alike trees come from related files, in order. -/
theorem forall_isRule (alike : Alike related nodes nodes') :
    ∀ node ∈ descendantsIn nodes, node.isRule → ∃ source', related node.source source' := by
  induction alike with
  | nil => simp
  | leaf _ inductionHypothesis =>
      exact forall_descendantsIn_leaf.mpr ⟨by simp [Node.isRule, Node.selector?], inductionHypothesis⟩
  | @block source source' head settled _ _ _ _ ofRule _ _ ofChildren ofRest =>
      refine forall_descendantsIn_block.mpr ⟨?_, ofChildren, ofRest⟩
      cases head with
      | rule selector => exact fun _ => ⟨source', ofRule selector rfl⟩
      | sheet => simp [Node.isRule, Node.selector?]
      | atRule name params hasBlock => simp [Node.isRule, Node.selector?]

theorem declarationsIn_eq (alike : Alike related nodes nodes') :
    declarationsIn nodes = declarationsIn nodes' := by
  induction alike with
  | nil => rfl
  | @leaf _ _ content _ _ _ ofRest =>
      simp only [declarationsIn] at ofRest ⊢
      cases content <;> simp [List.filterMap_cons, Node.declaration?, ofRest]
  | block _ _ _ ofChildren ofRest =>
      simp only [declarationsIn] at ofChildren ofRest ⊢
      simp [List.filterMap_cons, Node.declaration?, ofChildren, ofRest]

theorem selectorsIn_eq (alike : Alike related nodes nodes') :
    selectorsIn nodes = selectorsIn nodes' := by
  induction alike with
  | nil => rfl
  | leaf _ ofRest =>
      simp only [selectorsIn] at ofRest ⊢
      simp [List.filterMap_cons, Node.selector?, ofRest]
  | @block _ _ head _ _ _ _ _ _ _ _ ofChildren ofRest =>
      simp only [selectorsIn] at ofChildren ofRest ⊢
      cases head <;> simp [List.filterMap_cons, Node.selector?, ofChildren, ofRest]

theorem heightIn_eq (alike : Alike related nodes nodes') : heightIn nodes = heightIn nodes' := by
  induction alike with
  | nil => rfl
  | leaf _ ofRest => simp [ofRest]
  | block _ _ _ ofChildren ofRest => simp [ofChildren, ofRest]

theorem height_eq (alike : Alike related [node] [node']) : node.height = node'.height := by
  simpa using alike.heightIn_eq

theorem isEmpty_eq (alike : Alike related nodes nodes') : nodes.isEmpty = nodes'.isEmpty := by
  cases alike <;> rfl

theorem anyFreeRule_eq (alike : Alike related nodes nodes') (inKeyframes : Bool) :
    anyFreeRule inKeyframes nodes = anyFreeRule inKeyframes nodes' := by
  induction alike generalizing inKeyframes with
  | nil => rfl
  | leaf _ ofRest => simp [anyFreeRule, Node.hasFreeRule, ofRest]
  | @block _ _ head _ _ _ _ _ _ _ _ ofChildren ofRest =>
      cases head <;> simp [anyFreeRule, Node.hasFreeRule, ofChildren, ofRest]

theorem isTreated_eq (alike : Alike related [node] [node']) : node.isTreated = node'.isTreated := by
  cases alike with
  | leaf => rfl
  | @block _ _ head _ _ _ _ _ _ ofChildren _ =>
      cases head <;> simp [Node.isTreated, ofChildren.anyFreeRule_eq]

theorem head?_eq (alike : Alike related [node] [node']) : node.head? = node'.head? := by
  cases alike <;> rfl

theorem isMedia_eq (alike : Alike related [node] [node']) : node.isMedia = node'.isMedia := by
  rw [Node.isMedia, Node.isMedia, alike.head?_eq]

theorem isLeaf_eq (alike : Alike related [node] [node']) : node.isLeaf = node'.isLeaf := by
  cases alike <;> rfl

theorem isSettled_eq (alike : Alike related [node] [node']) : node.isSettled = node'.isSettled := by
  cases alike <;> rfl

theorem selector?_eq (alike : Alike related [node] [node']) : node.selector? = node'.selector? := by
  cases alike with
  | leaf => rfl
  | @block _ _ head => cases head <;> rfl

theorem isAtRule_eq (alike : Alike related [node] [node']) : node.isAtRule = node'.isAtRule := by
  cases alike with
  | leaf => rfl
  | @block _ _ head => cases head <;> rfl

/-! ## Shapes -/

theorem inner (alike : Alike related [node] [node']) :
    Alike related node.children node'.children := by
  cases alike with
  | leaf => exact nil
  | block _ ofChildren => exact ofChildren

/-- Every node has one in the same place that is alike. -/
theorem exists_mem (alike : Alike related nodes nodes') :
    ∀ node ∈ nodes, ∃ node' ∈ nodes', Alike related [node] [node'] := by
  induction alike using nodes_induction with
  | nil => simp
  | @cons node node' _ _ nodeAlike _ ofRest =>
      rw [List.forall_mem_cons]
      refine ⟨⟨node', List.mem_cons_self, nodeAlike⟩, fun other member => ?_⟩
      rcases ofRest other member with ⟨other', member', otherAlike⟩
      exact ⟨other', List.mem_cons_of_mem _ member', otherAlike⟩

theorem exists_mem_descendantsIn (alike : Alike related nodes nodes') :
    ∀ node ∈ descendantsIn nodes, ∃ node' ∈ descendantsIn nodes', Alike related [node] [node'] := by
  induction alike with
  | nil => simp
  | @leaf source source' content _ _ _ ofRest =>
      refine forall_descendantsIn_leaf.mpr ⟨⟨.leaf source' content, by simp, leaf nil⟩, ?_⟩
      intro node member
      rcases ofRest node member with ⟨node', member', nodeAlike⟩
      exact ⟨node', by simp [member'], nodeAlike⟩
  | block ofRule childrenAlike _ ofChildren ofRest =>
      refine forall_descendantsIn_block.mpr
        ⟨⟨_, List.mem_cons_self, block ofRule childrenAlike nil⟩, ?_, ?_⟩
      · intro node member
        rcases ofChildren node member with ⟨node', member', nodeAlike⟩
        exact ⟨node', by simp [member'], nodeAlike⟩
      · intro node member
        rcases ofRest node member with ⟨node', member', nodeAlike⟩
        exact ⟨node', by simp [member'], nodeAlike⟩

theorem unmarked (alike : Alike related nodes nodes') (unmarked : Unmarked nodes') :
    Unmarked nodes := by
  intro node member
  rcases alike.exists_mem_descendantsIn node member with ⟨node', member', nodeAlike⟩
  rw [nodeAlike.isSettled_eq, unmarked node' member']

theorem noMedia (alike : Alike related nodes nodes') (noMedia : NoMedia nodes') : NoMedia nodes := by
  intro node member
  rcases alike.exists_mem_descendantsIn node member with ⟨node', member', nodeAlike⟩
  rw [nodeAlike.isMedia_eq, noMedia node' member']

theorem eachSelector {P : String → Prop} (alike : Alike related nodes nodes')
    (each : EachSelector P nodes') : EachSelector P nodes := by
  rw [EachSelector, alike.selectorsIn_eq]
  exact each

theorem plain (alike : Alike related nodes nodes') (plain : Plain nodes') : Plain nodes where
  flat := by
    intro node member isRule child isChild
    rcases alike.exists_mem_descendantsIn node member with ⟨node', member', nodeAlike⟩
    rcases nodeAlike.inner.exists_mem child isChild with ⟨child', isChild', childAlike⟩
    rw [Node.isRule, nodeAlike.selector?_eq] at isRule
    rw [childAlike.isLeaf_eq]
    exact plain.flat node' member' isRule child' isChild'
  unburied := by
    intro outer member isMedia between isBelow isAtRule isOther
    rcases alike.exists_mem_descendantsIn outer member with ⟨outer', member', outerAlike⟩
    rcases outerAlike.inner.exists_mem_descendantsIn between isBelow with
      ⟨between', isBelow', betweenAlike⟩
    rw [outerAlike.isMedia_eq] at isMedia
    rw [betweenAlike.isAtRule_eq] at isAtRule
    rw [betweenAlike.isMedia_eq] at isOther
    exact betweenAlike.inner.noMedia
      (plain.unburied outer' member' isMedia between' isBelow' isAtRule isOther)
  noSheet := by
    intro node member
    rcases alike.exists_mem_descendantsIn node member with ⟨node', member', nodeAlike⟩
    rw [nodeAlike.head?_eq]
    exact plain.noSheet node' member'

/-! ## Marks and copies -/

theorem clearMarksIn (alike : Alike related nodes nodes') :
    Alike related (clearMarksIn nodes) (clearMarksIn nodes') := by
  induction alike with
  | nil => exact nil
  | leaf _ ofRest => exact leaf ofRest
  | block ofRule _ _ ofChildren ofRest => exact block ofRule ofChildren ofRest

theorem settleMediaIn (alike : Alike related nodes nodes') :
    Alike related (settleMediaIn nodes) (settleMediaIn nodes') := by
  induction alike with
  | nil => exact nil
  | leaf _ ofRest => exact leaf ofRest
  | block ofRule _ _ ofChildren ofRest => exact block ofRule ofChildren ofRest

variable (persist : FilesPersist related)

include persist

theorem inherit (file file' : Option String) (alike : Alike related [node] [node']) :
    Alike related [node.inherit file] [node'.inherit file'] := by
  cases alike with
  | leaf => exact leaf nil
  | block ofRule ofChildren =>
      exact block (fun selector isRule => persist _ _ (ofRule selector isRule) file file') ofChildren nil

theorem copyInto (file file' : Option String) (alike : Alike related nodes nodes') :
    Alike related (copyInto file nodes) (copyInto file' nodes') := by
  induction alike generalizing file file' with
  | nil => exact nil
  | leaf _ ofRest => exact leaf (ofRest file file')
  | @block source source' _ _ _ _ _ _ ofRule _ _ ofChildren ofRest =>
      exact block (fun selector isRule => persist _ _ (ofRule selector isRule) file file')
        (ofChildren source source') (ofRest file file')

theorem copy (alike : Alike related [node] [node']) : Alike related [node.copy] [node'.copy] := by
  cases alike with
  | leaf => exact leaf nil
  | @block source source' _ _ _ _ _ _ ofRule ofChildren =>
      exact block ofRule (ofChildren.copyInto persist source source') nil

end Alike

end ContainerPreview
