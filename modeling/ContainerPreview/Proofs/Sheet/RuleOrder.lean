import ContainerPreview.Proofs.Sheet.Alike
import Mathlib.Data.List.Flatten
import Mathlib.Data.List.Nodup
import Std.Data.String.ToNat

/-!
# The order of rules

Files tell the rules of a sheet apart once every rule comes from a file of its
own: a copy of a rule then names the rule that it is a copy of.  The rules of
any sheet can be numbered so.  In the list of the files of its rules, in
document order, one rule stands before another in one order only, and a list
taken apart into parts keeps the order of the parts.
-/

namespace ContainerPreview

open List

/-! ## Order in lists -/

section Order

variable {α ι : Type} {part left right : List α}

/-- Entries that are not on the right are on the left. -/
theorem sublist_append_left_iff (apart : ∀ entry ∈ part, entry ∉ right) :
    part <+ left ++ right ↔ part <+ left := by
  refine ⟨fun within => ?_, fun within => within.trans (sublist_append_left left right)⟩
  rcases sublist_append_iff.mp within with ⟨first, second, rfl, ofLeft, ofRight⟩
  have none : second = [] := eq_nil_iff_forall_not_mem.mpr fun entry member =>
    apart entry (mem_append_right first member) (ofRight.subset member)
  rwa [none, append_nil]

/-- Entries that are not on the left are on the right. -/
theorem sublist_append_right_iff (apart : ∀ entry ∈ part, entry ∉ left) :
    part <+ left ++ right ↔ part <+ right := by
  refine ⟨fun within => ?_, fun within => within.trans (sublist_append_right left right)⟩
  rcases sublist_append_iff.mp within with ⟨first, second, rfl, ofLeft, ofRight⟩
  have none : first = [] := eq_nil_iff_forall_not_mem.mpr fun entry member =>
    apart entry (mem_append_left second member) (ofLeft.subset member)
  rwa [none, nil_append]

/-- In a list without repetition two entries stand in one order only. -/
theorem not_sublist_swap {names : List α} (nodup : names.Nodup) {first second : α}
    (order : [first, second] <+ names) : ¬ [second, first] <+ names := by
  intro swapped
  rcases cons_sublist_iff.mp order with ⟨before, after, rfl, ofFirst, ofSecond⟩
  rw [singleton_sublist] at ofSecond
  have apart := (nodup_append.mp nodup).2.2
  rcases sublist_append_iff.mp swapped with ⟨_ | ⟨entry, part⟩, rest, same, ofBefore, ofAfter⟩
  · rw [nil_append] at same
    exact apart first ofFirst first (ofAfter.subset (by simp [← same])) rfl
  · rw [cons_append, cons.injEq] at same
    exact apart second (ofBefore.subset (by simp [same.1])) second ofSecond rfl

/-! ### Lists in parts -/

variable {names share : ι → List α} {parts : List ι}

/-- If the parts have different entries, and the share of a part has only
entries of that part, then entries of one part are found in its share alone. -/
theorem sublist_flatMap_iff (nodup : (parts.flatMap names).Nodup)
    (within : ∀ part ∈ parts, ∀ entry ∈ share part, entry ∈ names part) {own : ι}
    (member : own ∈ parts) {entries : List α} (ofOwn : ∀ entry ∈ entries, entry ∈ names own) :
    entries <+ parts.flatMap share ↔ entries <+ share own := by
  rcases append_of_mem member with ⟨before, after, rfl⟩
  rw [flatMap_append, flatMap_cons] at nodup ⊢
  have apart := (nodup_append.mp nodup).2.2
  have apartLater := (nodup_append.mp (nodup_append.mp nodup).2.1).2.2
  rw [sublist_append_right_iff, sublist_append_left_iff]
  · intro entry isEntry later
    rcases mem_flatMap.mp later with ⟨part, isLater, ofPart⟩
    have inLater := mem_flatMap.mpr ⟨part, isLater, within part (by simp [isLater]) entry ofPart⟩
    exact apartLater entry (ofOwn entry isEntry) entry inLater rfl
  · intro entry isEntry earlier
    rcases mem_flatMap.mp earlier with ⟨part, isEarlier, ofPart⟩
    have inEarlier := mem_flatMap.mpr
      ⟨part, isEarlier, within part (by simp [isEarlier]) entry ofPart⟩
    exact apart entry inEarlier entry (mem_append_left _ (ofOwn entry isEntry)) rfl

/-- Two entries in the order of a list of parts are in one part, or in two in that
order. -/
theorem pair_sublist_flatMap {first second : α} (order : [first, second] <+ parts.flatMap names) :
    (∃ part ∈ parts, [first, second] <+ names part) ∨
      ∃ part other, [part, other] <+ parts ∧ first ∈ names part ∧ second ∈ names other := by
  suffices inOrder : (parts.flatMap names).Pairwise fun first second =>
      (∃ part ∈ parts, [first, second] <+ names part) ∨
        ∃ part other, [part, other] <+ parts ∧ first ∈ names part ∧ second ∈ names other from
    pairwise_iff_forall_sublist.mp inOrder order
  refine pairwise_flatMap.mpr ⟨?_, ?_⟩
  · intro part member
    exact pairwise_iff_forall_sublist.mpr fun within => Or.inl ⟨part, member, within⟩
  · exact pairwise_iff_forall_sublist.mpr fun {part other} partsOrder first ofFirst second ofSecond =>
      Or.inr ⟨part, other, partsOrder, ofFirst, ofSecond⟩

theorem pair_sublist_of_parts {part other : ι} (partsOrder : [part, other] <+ parts) {first second : α}
    (ofFirst : first ∈ names part) (ofSecond : second ∈ names other) :
    [first, second] <+ parts.flatMap names := by
  have ofParts : names part ++ names other <+ parts.flatMap names := by
    simpa using partsOrder.flatMap names
  exact ((singleton_sublist.mpr ofFirst).append (singleton_sublist.mpr ofSecond)).trans ofParts

/-- If the parts have different entries, every entry is in one part. -/
theorem part_eq_of_mem (nodup : (parts.flatMap names).Nodup) {part other : ι}
    (isPart : part ∈ parts) (isOther : other ∈ parts) {entry : α} (ofPart : entry ∈ names part)
    (ofOther : entry ∈ names other) : part = other := by
  have noOrder : ∀ first second, [first, second] <+ parts → entry ∈ names first →
      entry ∈ names second → False := fun first second partsOrder ofFirst ofSecond =>
    nodup_iff_sublist.mp nodup entry (pair_sublist_of_parts partsOrder ofFirst ofSecond)
  rcases append_of_mem isPart with ⟨before, after, rfl⟩
  rcases mem_append.mp isOther with earlier | laterOrSame
  · exact (noOrder other part
      ((singleton_sublist.mpr earlier).append (singleton_sublist.mpr mem_cons_self)) ofOther
      ofPart).elim
  · rcases mem_cons.mp laterOrSame with same | later
    · exact same.symm
    · exact (noOrder part other ((singleton_sublist.mpr later).cons_cons part |>.trans
        (sublist_append_right _ _)) ofPart ofOther).elim

/-- Shares in the order of their parts keep the order of entries from different
parts. -/
theorem sublist_flatMap_of_share
    (within : ∀ part ∈ parts, ∀ entry ∈ share part, entry ∈ names part) {first second : α}
    (order : [first, second] <+ parts.flatMap share) :
    (∃ part ∈ parts, first ∈ names part ∧ second ∈ names part) ∨
      [first, second] <+ parts.flatMap names := by
  rcases pair_sublist_flatMap order with
    ⟨part, member, both⟩ | ⟨part, other, partsOrder, ofFirst, ofSecond⟩
  · exact Or.inl ⟨part, member, within part member first (both.subset (by simp)),
      within part member second (both.subset (by simp))⟩
  · have ofFirst := within part (partsOrder.subset (by simp)) first ofFirst
    have ofSecond := within other (partsOrder.subset (by simp)) second ofSecond
    exact Or.inr (pair_sublist_of_parts partsOrder ofFirst ofSecond)

end Order

/-! ## The files of rules -/

/-- The file that a rule comes from. -/
def Node.ruleSource? : Node → Option String
  | .block source (.rule _) _ _ => source
  | _ => none

/-- The files that the rules at any depth of a list of nodes come from, in
document order. -/
def ruleSourcesIn (nodes : List Node) : List String :=
  (descendantsIn nodes).filterMap Node.ruleSource?

/-- Every rule comes from a file. -/
def Sourced (nodes : List Node) : Prop :=
  ∀ node ∈ descendantsIn nodes, node.isRule → node.source.isSome

section RuleSources

variable {source : Option String} {content : Leaf} {selector : String} {head : Head}
  {settled : Bool} {children rest left right nodes : List Node}

@[simp]
theorem ruleSourcesIn_nil : ruleSourcesIn [] = [] :=
  rfl

@[simp]
theorem ruleSourcesIn_append :
    ruleSourcesIn (left ++ right) = ruleSourcesIn left ++ ruleSourcesIn right := by
  simp [ruleSourcesIn]

@[simp]
theorem ruleSourcesIn_leaf :
    ruleSourcesIn (.leaf source content :: rest) = ruleSourcesIn rest := by
  simp [ruleSourcesIn, filterMap_cons, Node.ruleSource?]

@[simp]
theorem ruleSourcesIn_rule :
    ruleSourcesIn (.block source (.rule selector) settled children :: rest) =
      source.toList ++ (ruleSourcesIn children ++ ruleSourcesIn rest) := by
  cases source <;> simp [ruleSourcesIn, filterMap_cons, Node.ruleSource?]

theorem ruleSourcesIn_block (noRule : ∀ selector, head ≠ .rule selector) :
    ruleSourcesIn (.block source head settled children :: rest) =
      ruleSourcesIn children ++ ruleSourcesIn rest := by
  cases head with
  | rule selector => exact absurd rfl (noRule selector)
  | sheet => simp [ruleSourcesIn, filterMap_cons, Node.ruleSource?]
  | atRule name params hasBlock => simp [ruleSourcesIn, filterMap_cons, Node.ruleSource?]

theorem ruleSourcesIn_cons (node : Node) (rest : List Node) :
    ruleSourcesIn (node :: rest) = ruleSourcesIn [node] ++ ruleSourcesIn rest := by
  rw [← singleton_append, ruleSourcesIn_append]

theorem ruleSourcesIn_flatMap {ι : Type} (parts : List ι) (change : ι → List Node) :
    ruleSourcesIn (parts.flatMap change) = parts.flatMap fun part => ruleSourcesIn (change part) := by
  induction parts with
  | nil => rfl
  | cons part rest inductionHypothesis =>
      rw [flatMap_cons, ruleSourcesIn_append, inductionHypothesis, flatMap_cons]

/-- The files of rules are those of the rules. -/
theorem mem_ruleSourcesIn {name : String} :
    name ∈ ruleSourcesIn nodes ↔
      ∃ node ∈ descendantsIn nodes, node.isRule ∧ node.source = some name := by
  have ofNode : ∀ node : Node, node.ruleSource? = some name ↔
      node.isRule ∧ node.source = some name := by
    rintro (_ | ⟨_, _ | _ | _, _, _⟩) <;>
      simp [Node.ruleSource?, Node.isRule, Node.selector?, Node.source]
  simp [ruleSourcesIn, ofNode]

theorem ruleSourcesIn_of_leaves (leaves : ∀ node ∈ nodes, node.isLeaf) :
    ruleSourcesIn nodes = [] := by
  induction nodes, leaves using leaves_induction with
  | nil => rfl
  | leaf source content rest leaves ofRest => rw [ruleSourcesIn_leaf, ofRest]

/-- Fewer nodes have fewer rules, in the same order. -/
theorem ruleSourcesIn_sublist {nodes' : List Node} (fewer : nodes <+ nodes') :
    ruleSourcesIn nodes <+ ruleSourcesIn nodes' := by
  induction fewer with
  | slnil => exact .slnil
  | cons node _ inductionHypothesis =>
      rw [ruleSourcesIn_cons node]
      exact inductionHypothesis.trans (sublist_append_right _ _)
  | @cons_cons fewer more node _ inductionHypothesis =>
      rw [ruleSourcesIn_cons node fewer, ruleSourcesIn_cons node more]
      exact (Sublist.refl _).append inductionHypothesis

/-! ## Numbering rules -/

mutual
/-- The node with a number for every rule in it, in document order, in place of
the file that the rule comes from.  Its first rule gets the given number. -/
def Node.numberRules (next : Nat) : Node → Node
  | .leaf source content => .leaf source content
  | .block _ (.rule selector) settled children =>
      .block (some (toString next)) (.rule selector) settled (numberRulesIn (next + 1) children)
  | .block source head settled children =>
      .block source head settled (numberRulesIn next children)
/-- The nodes with a number for every rule in them. -/
def numberRulesIn (next : Nat) : List Node → List Node
  | [] => []
  | node :: nodes =>
      node.numberRules next :: numberRulesIn (next + (selectorsIn [node]).length) nodes
end

theorem numberRules_block (next : Nat) (noRule : ∀ selector, head ≠ .rule selector) :
    (Node.block source head settled children).numberRules next =
      .block source head settled (numberRulesIn next children) := by
  cases head with
  | rule selector => exact absurd rfl (noRule selector)
  | sheet => rfl
  | atRule name params hasBlock => rfl

/-- Numbers change nothing that is written. -/
theorem sameText_numberRulesIn (next : Nat) (nodes : List Node) :
    SameText (numberRulesIn next nodes) nodes := by
  induction nodes using forest_induction generalizing next with
  | nil => exact .nil
  | leaf source content rest ofRest => exact .leaf (ofRest _)
  | block source head settled children rest ofChildren ofRest =>
      cases head <;> exact .block (fun _ _ => trivial) (ofChildren _) (ofRest _)

theorem length_selectorsIn_cons (node : Node) (rest : List Node) :
    (selectorsIn (node :: rest)).length =
      (selectorsIn [node]).length + (selectorsIn rest).length := by
  rw [← singleton_append, selectorsIn, descendantsIn_append, filterMap_append, length_append]
  rfl

theorem length_selectorsIn_rule :
    (selectorsIn [.block source (.rule selector) settled children]).length =
      (selectorsIn children).length + 1 := by
  simp [selectorsIn, Node.selector?]

theorem length_selectorsIn_block (noRule : ∀ selector, head ≠ .rule selector) :
    (selectorsIn [.block source head settled children]).length = (selectorsIn children).length := by
  cases head with
  | rule selector => exact absurd rfl (noRule selector)
  | sheet => simp [selectorsIn, filterMap_cons, Node.selector?]
  | atRule name params hasBlock => simp [selectorsIn, filterMap_cons, Node.selector?]

/-- The rules are numbered one after another. -/
theorem ruleSourcesIn_numberRulesIn (next : Nat) (nodes : List Node) :
    ruleSourcesIn (numberRulesIn next nodes) =
      (range' next (selectorsIn nodes).length).map toString := by
  induction nodes using forest_induction generalizing next with
  | nil => rfl
  | leaf source content rest ofRest =>
      have noRule : (selectorsIn [.leaf source content]).length = 0 := by
        simp [selectorsIn, Node.selector?]
      rw [numberRulesIn, Node.numberRules, ruleSourcesIn_leaf, ofRest,
        length_selectorsIn_cons _ rest, noRule, Nat.add_zero, Nat.zero_add]
  | block source head settled children rest ofChildren ofRest =>
      rw [numberRulesIn, length_selectorsIn_cons _ rest, ← range'_append_1, map_append, ← ofRest]
      cases head with
      | rule selector =>
          rw [Node.numberRules, ruleSourcesIn_rule, ofChildren, length_selectorsIn_rule, range'_succ,
            map_cons]
          rfl
      | sheet =>
          rw [numberRules_block next (by simp), ruleSourcesIn_block (by simp), ofChildren,
            length_selectorsIn_block (by simp)]
      | atRule name params hasBlock =>
          rw [numberRules_block next (by simp), ruleSourcesIn_block (by simp), ofChildren,
            length_selectorsIn_block (by simp)]

/-- No two rules get the same number. -/
theorem nodup_numberRulesIn (next : Nat) (nodes : List Node) :
    (ruleSourcesIn (numberRulesIn next nodes)).Nodup := by
  rw [ruleSourcesIn_numberRulesIn]
  exact (nodup_range' 1).map fun _ _ same => Nat.repr_injective same

theorem sourced_numberRulesIn (next : Nat) (nodes : List Node) :
    Sourced (numberRulesIn next nodes) := by
  induction nodes using forest_induction generalizing next with
  | nil => simp [Sourced, numberRulesIn]
  | leaf source content rest ofRest =>
      exact forall_descendantsIn_leaf.mpr ⟨by simp [Node.isRule, Node.selector?], ofRest _⟩
  | block source head settled children rest ofChildren ofRest =>
      cases head with
      | rule selector =>
          exact forall_descendantsIn_block.mpr ⟨fun _ => rfl, ofChildren _, ofRest _⟩
      | sheet =>
          exact forall_descendantsIn_block.mpr
            ⟨by simp [Node.isRule, Node.selector?], ofChildren _, ofRest _⟩
      | atRule name params hasBlock =>
          exact forall_descendantsIn_block.mpr
            ⟨by simp [Node.isRule, Node.selector?], ofChildren _, ofRest _⟩

end RuleSources

end ContainerPreview
