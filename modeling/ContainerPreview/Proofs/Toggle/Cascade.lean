import ContainerPreview.Proofs.Toggle.Group
import ContainerPreview.Proofs.Toggle.Share

/-!
# The order of variants

Every rule of a plain sheet gets at most one variant.  The variants stand in the
order of their rules, except in one case: within an outermost media block, whose
groups are written one after another, a variant that belongs to a group of the
nest is overtaken by the variants of all groups that open before it, and by
those of the rules that are forked where they are.
-/

namespace ContainerPreview

open List

/-! ## Lists with some entries doubled -/

/-- The second list is the first one with some entries written twice in a row. -/
inductive Doubled (twice : String → Prop) : List String → List String → Prop
  | nil : Doubled twice [] []
  | once {name : String} {names names' : List String} (ofRest : Doubled twice names names') :
      Doubled twice (name :: names) (name :: names')
  | again {name : String} {names names' : List String} (isTwice : twice name)
      (ofRest : Doubled twice names names') :
      Doubled twice (name :: names) (name :: name :: names')

namespace Doubled

variable {twice twice' : String → Prop} {names names' left left' right right' : List String}

theorem refl (names : List String) : Doubled twice names names := by
  induction names with
  | nil => exact nil
  | cons name rest inductionHypothesis => exact once inductionHypothesis

theorem append (ofLeft : Doubled twice left left') (ofRight : Doubled twice right right') :
    Doubled twice (left ++ right) (left' ++ right') := by
  induction ofLeft with
  | nil => exact ofRight
  | once _ inductionHypothesis => exact once inductionHypothesis
  | again isTwice _ inductionHypothesis => exact again isTwice inductionHypothesis

theorem imp (doubled : Doubled twice names names')
    (implies : ∀ name ∈ names, twice name → twice' name) : Doubled twice' names names' := by
  induction doubled with
  | nil => exact nil
  | once _ inductionHypothesis =>
      exact once (inductionHypothesis (forall_mem_cons.mp implies).2)
  | again isTwice _ inductionHypothesis =>
      rcases forall_mem_cons.mp implies with ⟨ofName, ofRest⟩
      exact again (ofName isTwice) (inductionHypothesis ofRest)

/-- With nothing doubled, the lists are the same. -/
theorem eq_of_none (doubled : Doubled (fun _ => False) names names') : names' = names := by
  induction doubled with
  | nil => rfl
  | once _ inductionHypothesis => rw [inductionHypothesis]
  | again isTwice => exact isTwice.elim

theorem sublist (doubled : Doubled twice names names') : names <+ names' := by
  induction doubled with
  | nil => exact .slnil
  | once _ inductionHypothesis => exact inductionHypothesis.cons_cons _
  | again _ _ inductionHypothesis => exact (inductionHypothesis.cons_cons _).cons _

theorem mem_of_mem (doubled : Doubled twice names names') {name : String} (member : name ∈ names') :
    name ∈ names := by
  induction doubled with
  | nil => exact member
  | once _ inductionHypothesis =>
      rcases mem_cons.mp member with rfl | later
      · exact mem_cons_self
      · exact mem_cons_of_mem _ (inductionHypothesis later)
  | again _ _ inductionHypothesis =>
      rcases mem_cons.mp member with rfl | later
      · exact mem_cons_self
      · rcases mem_cons.mp later with rfl | later
        · exact mem_cons_self
        · exact mem_cons_of_mem _ (inductionHypothesis later)

theorem count_le (doubled : Doubled twice names names') (name : String) :
    names'.count name ≤ 2 * names.count name := by
  induction doubled with
  | nil => simp
  | once _ inductionHypothesis =>
      rw [count_cons, count_cons]
      omega
  | again _ _ inductionHypothesis =>
      rw [count_cons, count_cons, count_cons]
      omega

theorem order_cons (doubled : Doubled twice names names') {name first second : String}
    (ofRest : [first, second] <+ names' →
      (first = second ∧ twice first) ∨ [first, second] <+ names)
    (inOrder : [first, second] <+ name :: names') :
    (first = second ∧ twice first) ∨ [first, second] <+ name :: names := by
  rcases cons_sublist_cons'.mp inOrder with later | ⟨rfl, ofSecond⟩
  · exact (ofRest later).imp_right fun ofNames => ofNames.cons name
  · have inNames := doubled.mem_of_mem (singleton_sublist.mp ofSecond)
    exact Or.inr ((singleton_sublist.mpr inNames).cons_cons first)

/-- Of two entries that follow each other, either both are one entry doubled, or
they stand in the order of the first list. -/
theorem order (doubled : Doubled twice names names') {first second : String}
    (inOrder : [first, second] <+ names') :
    (first = second ∧ twice first) ∨ [first, second] <+ names := by
  induction doubled with
  | nil => cases inOrder
  | once ofRest inductionHypothesis => exact ofRest.order_cons inductionHypothesis inOrder
  | again isTwice ofRest inductionHypothesis =>
      rcases cons_sublist_cons'.mp inOrder with later | ⟨rfl, ofSecond⟩
      · exact ofRest.order_cons inductionHypothesis later
      · rcases mem_cons.mp (singleton_sublist.mp ofSecond) with rfl | later
        · exact Or.inl ⟨rfl, isTwice⟩
        · have inNames := ofRest.mem_of_mem later
          exact Or.inr ((singleton_sublist.mpr inNames).cons_cons first)

end Doubled

/-! ## Rules that take the place of rules -/

section Sources

variable {source file : Option String} {selector : String} {head : Head} {settled : Bool}
  {children rest nodes : List Node}

theorem sourced_rule (sourced : Sourced (.block source (.rule selector) settled children :: rest)) :
    ∃ name, source = some name :=
  Option.isSome_iff_exists.mp ((forall_descendantsIn_block.mp sourced).1 rfl)

/-- If a rule becomes one or two that come from its file, so do all rules that are
replaced. -/
theorem doubled_replaceRulesIn {change : RuleChange} {twice : String → Prop}
    (changed : ∀ around name selector children, (∀ child ∈ children, child.isLeaf) →
      Doubled twice [name] (ruleSourcesIn (change around (some name) selector children)))
    (inKeyframes : Bool) (around : Option String) (flat : FlatRules nodes)
    (sourced : Sourced nodes) :
    Doubled twice (ruleSourcesIn nodes)
      (ruleSourcesIn (replaceRulesIn change inKeyframes around nodes)) := by
  induction nodes using forest_induction generalizing inKeyframes around with
  | nil => exact .nil
  | leaf source content rest ofRest =>
      simp only [flatRules_leaf] at flat
      rw [replaceRulesIn_leaf, ruleSourcesIn_leaf, ruleSourcesIn_leaf]
      exact ofRest inKeyframes around flat (forall_descendantsIn_leaf.mp sourced).2
  | block source head settled children rest ofChildren ofRest =>
      rcases forall_descendantsIn_block.mp sourced with ⟨-, childrenSourced, restSourced⟩
      cases head with
      | sheet =>
          rcases flatRules_sheet.mp flat with ⟨childrenFlat, restFlat⟩
          rw [replaceRulesIn_sheet, ruleSourcesIn_block (by simp), ruleSourcesIn_block (by simp)]
          exact (ofChildren false source childrenFlat childrenSourced).append
            (ofRest inKeyframes around restFlat restSourced)
      | rule selector =>
          rcases flatRules_rule.mp flat with ⟨leaves, -, restFlat⟩
          obtain ⟨name, rfl⟩ := sourced_rule sourced
          rw [replaceRulesIn_rule, ruleSourcesIn_append, ruleSourcesIn_rule,
            ruleSourcesIn_of_leaves leaves, nil_append]
          refine .append ?_ (ofRest inKeyframes around restFlat restSourced)
          split
          · rw [ruleSourcesIn_rule, ruleSourcesIn_of_leaves leaves]
            exact .refl [name]
          · exact changed around name selector children leaves
      | atRule name params hasBlock =>
          rcases flatRules_atRule.mp flat with ⟨childrenFlat, restFlat⟩
          rw [replaceRulesIn_atRule, ruleSourcesIn_block (by simp), ruleSourcesIn_block (by simp)]
          exact (ofChildren _ source childrenFlat childrenSourced).append
            (ofRest inKeyframes around restFlat restSourced)

/-- A copy of a rule comes from the file of the rule. -/
theorem ruleSourcesIn_copyInto (file : Option String) (sourced : Sourced nodes) :
    ruleSourcesIn (copyInto file nodes) = ruleSourcesIn nodes := by
  induction nodes using forest_induction generalizing file with
  | nil => rfl
  | leaf source content rest ofRest =>
      rw [copyInto, Node.copy, Node.inherit, ruleSourcesIn_leaf, ruleSourcesIn_leaf,
        ofRest file (forall_descendantsIn_leaf.mp sourced).2]
  | block source head settled children rest ofChildren ofRest =>
      rcases forall_descendantsIn_block.mp sourced with ⟨-, childrenSourced, restSourced⟩
      rw [copyInto, Node.copy, Node.inherit]
      cases head with
      | sheet =>
          rw [ruleSourcesIn_block (by simp), ruleSourcesIn_block (by simp),
            ofChildren source childrenSourced, ofRest file restSourced]
      | rule selector =>
          obtain ⟨name, rfl⟩ := sourced_rule sourced
          rw [ruleSourcesIn_rule, ruleSourcesIn_rule, ofChildren (some name) childrenSourced,
            ofRest file restSourced, Option.some_or]
      | atRule name params hasBlock =>
          rw [ruleSourcesIn_block (by simp), ruleSourcesIn_block (by simp),
            ofChildren source childrenSourced, ofRest file restSourced]

theorem ruleSourcesIn_copy {node : Node} (sourced : Sourced [node]) :
    ruleSourcesIn [node.copy] = ruleSourcesIn [node] := by
  rw [← ruleSourcesIn_copyInto none sourced]
  cases node <;> simp [copyInto, Node.copy, Node.inherit]

theorem sourced_copy {node : Node} (sourced : Sourced [node]) : Sourced [node.copy] := by
  have persist : FilesPersist fun source _ => source.isSome := by
    intro source _ isSome file _
    rw [Option.isSome_or, isSome, Bool.true_or]
  have alike : Alike (fun source _ => source.isSome) [node] [node] := .self sourced
  intro below isBelow isRule
  exact ((alike.copy persist).forall_isRule below isBelow isRule).elim fun _ isSome => isSome

end Sources

namespace Toggle

variable {toggle : Toggle}

theorem doubled_forkedRules (around : Option String) (name selector : String)
    (children : List Node) (leaves : ∀ child ∈ children, child.isLeaf) :
    Doubled (fun _ => True) [name]
      (ruleSourcesIn (toggle.forkedRules around (some name) selector children)) := by
  have converted := ruleSourcesIn_of_leaves
    (toggle.isLeaf_of_mem_convertedChildren (some name) leaves)
  unfold forkedRules
  split
  · simp only [ruleSourcesIn_rule, ruleSourcesIn_of_leaves leaves, converted, Option.some_or]
    exact .again trivial .nil
  · simp only [ruleSourcesIn_rule, ruleSourcesIn_of_leaves leaves]
    exact .refl [name]

theorem ruleSourcesIn_viewportRule (inKeyframes : Bool) (around : Option String) {nodes : List Node}
    (flat : FlatRules nodes) (sourced : Sourced nodes) :
    ruleSourcesIn (replaceRulesIn toggle.viewportRule inKeyframes around nodes) =
      ruleSourcesIn nodes := by
  refine (doubled_replaceRulesIn ?_ inKeyframes around flat sourced).eq_of_none
  intro around name selector children leaves
  simp only [viewportRule, ruleSourcesIn_rule, ruleSourcesIn_of_leaves leaves]
  exact .refl [name]

theorem ruleSourcesIn_previewRule (inKeyframes : Bool) (around : Option String) {nodes : List Node}
    (flat : FlatRules nodes) (sourced : Sourced nodes) :
    ruleSourcesIn (replaceRulesIn toggle.previewRule inKeyframes around nodes) =
      ruleSourcesIn nodes := by
  refine (doubled_replaceRulesIn ?_ inKeyframes around flat sourced).eq_of_none
  intro around name selector children leaves
  have converted : ∀ child ∈ (processChildren toggle.converter true (some name)
      children).value.children, child.isLeaf :=
    isLeaf_of_mem_nodesVariant leaves
  simp only [previewRule, ruleSourcesIn_rule, ruleSourcesIn_of_leaves converted]
  exact .refl [name]

end Toggle

/-! ## Groups of a media nest -/

/-- The files that the treated rules of a group come from. -/
def MediaGroup.ruleSources (group : MediaGroup) : List String :=
  ruleSourcesIn (group.nodes.filter Node.isTreated)

/-- One of the groups is without conditions and treats the rule. -/
def AlwaysHolds (groups : List MediaGroup) (name : String) : Prop :=
  ∃ group ∈ groups, group.conditions = [] ∧ name ∈ group.ruleSources

/-- The variant of the later of two rules comes before that of the earlier one:
the earlier one belongs to a group with conditions, the later one to a group
without any or to one that opens before the other. -/
def Overtakes (groups : List MediaGroup) (later earlier : String) : Prop :=
  ∃ own ∈ groups, ∃ other ∈ groups,
    (earlier ∈ own.ruleSources ∧ own.conditions ≠ []) ∧ later ∈ other.ruleSources ∧
      (other.conditions = [] ∨ [other, own] <+ groups)

section Groups

variable {hook : Option Media.Hook} {conditions : List String} {source : Option String}
  {params : String} {hasBlock settled : Bool} {children nodes rest : List Node}

theorem flatMap_nestGroups (hook : Option Media.Hook) (conditions : List String)
    (nodes : List Node) :
    (nestGroups hook conditions nodes).flatMap MediaGroup.ruleSources =
      ruleSourcesIn (nodes.filter Node.isTreated) ++
        (mediaGroupsIn hook conditions nodes).flatMap MediaGroup.ruleSources :=
  rfl

/-- Every rule is treated in at most one group. -/
theorem count_ruleSources_le (conditions : List String) (nodes : List Node) (name : String) :
    ((nestGroups hook conditions nodes).flatMap MediaGroup.ruleSources).count name ≤
      (ruleSourcesIn nodes).count name := by
  induction nodes using nest_induction generalizing conditions with
  | nil => simp [nestGroups, mediaGroupsIn, MediaGroup.ruleSources]
  | media source params hasBlock settled children rest ofChildren ofRest =>
      have untreated : (Node.block source (.atRule "media" params hasBlock) settled
          children).isTreated = false := rfl
      have ofRest := ofRest conditions
      rw [flatMap_nestGroups, count_append] at ofRest ⊢
      rw [filter_cons_of_neg (by simp [untreated]), ruleSourcesIn_block (by simp), count_append]
      cases holds : (Media.conditions hook params).value with
      | none =>
          rw [mediaGroupsIn_media_of_none holds]
          omega
      | some own =>
          have ofChildren := ofChildren (Media.combine conditions own)
          rw [mediaGroupsIn_media_of_some holds, flatMap_append, count_append]
          omega
  | other node rest isOther ofRest =>
      have ofRest := ofRest conditions
      rw [flatMap_nestGroups, count_append] at ofRest ⊢
      rw [mediaGroupsIn_other isOther, ruleSourcesIn_cons node rest, count_append, filter_cons]
      split
      · rw [ruleSourcesIn_cons, count_append]
        omega
      · omega

/-- The treated rules of a group stand in their order in the nest. -/
theorem ruleSources_sublist {group : MediaGroup} (member : group ∈ nestGroups hook conditions nodes) :
    group.ruleSources <+ ruleSourcesIn nodes :=
  (ruleSourcesIn_sublist filter_sublist).trans
    ((descendantsIn_sublist_of_mem_nest member).filterMap Node.ruleSource?)

/-- A rule that is treated in a group without conditions still is with one more
node in front of the nest. -/
theorem alwaysHolds_cons {name : String} (node : Node)
    (holds : AlwaysHolds (nestGroups hook conditions nodes) name) :
    AlwaysHolds (nestGroups hook conditions (node :: nodes)) name := by
  rcases holds with ⟨group, member, always, isRule⟩
  rcases mem_cons.mp member with rfl | inner
  · exact ⟨_, mem_cons_self, always,
      (ruleSourcesIn_sublist ((sublist_cons_self node nodes).filter Node.isTreated)).subset isRule⟩
  · exact ⟨group, mem_cons_of_mem _ (mem_append_right _ inner), always, isRule⟩

theorem alwaysHolds_of_isTreated {name : String} {node : Node} (treated : node.isTreated)
    (member : name ∈ ruleSourcesIn [node]) :
    AlwaysHolds (nestGroups hook [] (node :: nodes)) name := by
  refine ⟨_, mem_cons_self, rfl, ?_⟩
  rw [MediaGroup.ruleSources, filter_cons_of_pos treated, ruleSourcesIn_cons]
  exact mem_append_left _ member

/-- A rule in a media block among the nodes is treated in a group of theirs. -/
theorem alwaysHolds_of_media {name : String} {own : List String}
    (isOwn : (Media.conditions hook params).value = some own)
    (holds : AlwaysHolds (nestGroups hook (Media.combine conditions own) children) name) :
    AlwaysHolds (nestGroups hook conditions
      (.block source (.atRule "media" params hasBlock) settled children :: rest)) name := by
  rcases holds with ⟨group, member, always, isRule⟩
  refine ⟨group, mem_cons_of_mem _ ?_, always, isRule⟩
  rw [mediaGroupsIn_media_of_some isOwn]
  exact mem_append_left _ member

end Groups

/-! ## What becomes of the rules of a media nest -/

namespace Toggle

variable {toggle : Toggle}

/-- Limiting the nodes of a media block doubles no rules but those that are in a
group without conditions. -/
theorem doubled_limitNodes {nodes : List Node} (shape : MediaNodes nodes) (sourced : Sourced nodes)
    (conditions : List String) (around : Option String) :
    Doubled (AlwaysHolds (nestGroups toggle.hook conditions nodes)) (ruleSourcesIn nodes)
      (ruleSourcesIn (toggle.limitNodes conditions around nodes)) := by
  induction nodes using nest_induction generalizing conditions around with
  | nil => exact .nil
  | media source params hasBlock settled children rest ofChildren ofRest =>
      rcases forall_descendantsIn_block.mp sourced with ⟨-, childrenSourced, restSourced⟩
      rw [limitNodes_cons, ruleSourcesIn_append, ruleSourcesIn_block (by simp)]
      have ofRest := (ofRest shape.tail restSourced conditions around).imp fun _ _ holds =>
        alwaysHolds_cons (.block source (.atRule "media" params hasBlock) settled children) holds
      refine .append ?_ ofRest
      cases holds : (Media.conditions toggle.hook params).value with
      | none =>
          rw [limitNode_media_of_none _ _ _ _ _ _ holds, ruleSourcesIn_block (by simp),
            ruleSourcesIn_nil, append_nil]
          exact .refl _
      | some own =>
          rw [limitNode_media_of_some _ _ _ _ _ _ holds, ruleSourcesIn_block (by simp),
            ruleSourcesIn_nil, append_nil]
          exact (ofChildren shape.children childrenSourced _ source).imp fun _ _ isAlways =>
            alwaysHolds_of_media holds isAlways
  | other node rest isOther ofRest =>
      rcases forall_descendantsIn_cons.mp sourced with ⟨nodeSourced, restSourced⟩
      rw [limitNodes_cons, ruleSourcesIn_append, ruleSourcesIn_cons node rest]
      have ofRest := (ofRest shape.tail restSourced conditions around).imp fun _ _ holds =>
        alwaysHolds_cons node holds
      refine .append ?_ ofRest
      rw [limitNode_other _ _ isOther]
      split
      · exact .refl _
      · rename_i noKeyframes
        rw [Bool.not_eq_true] at noKeyframes
        cases treated : node.isTreated with
        | false =>
            rw [Node.replaceRules_of_not_isTreated _ around shape.head_noSheet isOther noKeyframes
              treated]
            exact .refl _
        | true =>
            rw [← replaceRulesIn_singleton]
            cases conditions with
            | nil =>
                have forked := doubled_replaceRulesIn toggle.doubled_forkedRules false around
                  shape.head_flat nodeSourced
                exact forked.imp fun name member _ => alwaysHolds_of_isTreated treated member
            | cons condition conditions =>
                have limited := toggle.ruleSourcesIn_viewportRule false around shape.head_flat
                  nodeSourced
                exact limited ▸ .refl _

end Toggle

/-- The files that the rules of the container block of a group come from. -/
def MediaGroup.copiedSources (group : MediaGroup) : List String :=
  if group.conditions.isEmpty then [] else group.ruleSources

/-- The container block of a group holds one copy of each rule that is treated in
the group. -/
theorem ruleSourcesIn_containers (toggle : Toggle) (around : Option String) {group : MediaGroup}
    (flat : FlatRules group.nodes) (sourced : Sourced group.nodes) :
    ruleSourcesIn (group.containers toggle around) = group.copiedSources := by
  have copied : ∀ node ∈ group.nodes.filter Node.isTreated,
      ruleSourcesIn (node.copy.replaceRules toggle.previewRule false none) =
        ruleSourcesIn [node] := by
    intro node member
    have isBelow := mem_descendantsIn (mem_of_mem_filter member)
    have nodeFlat : FlatRules [node] := forall_descendantsIn_of_mem flat isBelow
    have nodeSourced : Sourced [node] := forall_descendantsIn_of_mem sourced isBelow
    rw [← replaceRulesIn_singleton, toggle.ruleSourcesIn_previewRule false none
      (flatRules_copy nodeFlat) (sourced_copy nodeSourced), ruleSourcesIn_copy nodeSourced]
  have ofTreated : ruleSourcesIn ((group.nodes.filter Node.isTreated).flatMap fun node =>
      node.copy.replaceRules toggle.previewRule false none) = group.ruleSources := by
    rw [ruleSourcesIn_flatMap, flatMap_congr copied, ← ruleSourcesIn_flatMap, flatMap_singleton',
      MediaGroup.ruleSources]
  rw [MediaGroup.containers, MediaGroup.copiedSources]
  cases group.conditions.isEmpty with
  | true => rfl
  | false =>
      simp only [Bool.false_or, Bool.false_eq_true, if_false]
      split
      · rename_i noneTreated
        rw [MediaGroup.ruleSources, isEmpty_iff.mp noneTreated, ruleSourcesIn_nil]
      · rw [ruleSourcesIn_block (by simp), ruleSourcesIn_nil, append_nil, ofTreated]

/-! ## The order of the copies -/

/-- What becomes of rules in the given order, of which a list names the copies:
no rule has more than one variant, and of two rules with variants the later one
has its variant first just if it overtakes the other. -/
structure Cascades (overtakes : String → String → Prop) (rules copies : List String) : Prop where
  count_le : ∀ name, copies.count name ≤ 2
  reversed_iff : ∀ {earlier later}, [earlier, later] <+ rules → [later, later] <+ copies →
    ([later, later, earlier] <+ copies ↔ overtakes later earlier)

/-- A rule is copied by a group with conditions that treats it. -/
theorem mem_copiedSources {group : MediaGroup} {name : String} :
    name ∈ group.copiedSources ↔ group.conditions ≠ [] ∧ name ∈ group.ruleSources := by
  rw [MediaGroup.copiedSources]
  cases group.conditions <;> simp

theorem copiedSources_sublist_ruleSources (group : MediaGroup) :
    group.copiedSources <+ group.ruleSources := by
  rw [MediaGroup.copiedSources]
  split
  · exact nil_sublist _
  · exact .refl _

theorem copiedSources_sublist (groups : List MediaGroup) :
    groups.flatMap MediaGroup.copiedSources <+ groups.flatMap MediaGroup.ruleSources :=
  Sublist.flatMap_right groups fun group _ => copiedSources_sublist_ruleSources group

section Nest

variable {groups : List MediaGroup} {rules limited : List String}

/-- A rule that is forked where it is has no copy in a container block. -/
theorem not_mem_copied_of_alwaysHolds (nodup : (groups.flatMap MediaGroup.ruleSources).Nodup)
    {name : String} (holds : AlwaysHolds groups name) :
    name ∉ groups.flatMap MediaGroup.copiedSources := by
  rcases holds with ⟨group, isGroup, always, isRule⟩
  intro copied
  rcases mem_flatMap.mp copied with ⟨other, isOther, isCopied⟩
  rcases mem_copiedSources.mp isCopied with ⟨conditional, isRule'⟩
  obtain rfl := part_eq_of_mem nodup isGroup isOther isRule isRule'
  exact conditional always

/-- Of two rules, the earlier one is not limited after the later one. -/
theorem Doubled.not_reversed {twice : String → Prop} (nodup : rules.Nodup)
    (doubled : Doubled twice rules limited) {earlier later : String}
    (order : [earlier, later] <+ rules) : ¬ [later, earlier] <+ limited := by
  intro reversed
  rcases doubled.order reversed with ⟨rfl, -⟩ | swapped
  · exact nodup_iff_sublist.mp nodup later order
  · exact not_sublist_swap nodup order swapped

/-- If the earlier of two rules has a copy after two copies of the later one, it is
overtaken. -/
theorem overtakes_of_reversed (nodup : rules.Nodup)
    (doubled : Doubled (AlwaysHolds groups) rules limited)
    (inOrder : ∀ group ∈ groups, group.ruleSources <+ rules)
    (groupsNodup : (groups.flatMap MediaGroup.ruleSources).Nodup) {earlier later : String}
    (order : [earlier, later] <+ rules)
    (reversed : [later, later, earlier] <+ limited ++ groups.flatMap MediaGroup.copiedSources) :
    Overtakes groups later earlier := by
  have notReversed := doubled.not_reversed nodup order
  have copiedNodup := groupsNodup.sublist (copiedSources_sublist groups)
  rcases sublist_append_iff.mp reversed with ⟨before, after, same, ofLimited, ofCopied⟩
  rcases before with _ | ⟨first, _ | ⟨second, _ | ⟨third, rest⟩⟩⟩ <;>
    simp only [nil_append, cons_append, cons.injEq] at same
  · -- both copies of the later rule in container blocks, where it has only one
    subst same
    have both : [later, later] <+ groups.flatMap MediaGroup.copiedSources :=
      (sublist_append_left [later, later] [earlier]).trans ofCopied
    exact absurd both (nodup_iff_sublist.mp copiedNodup later)
  · -- the copies of both rules in container blocks
    rcases same with ⟨rfl, rfl⟩
    rcases pair_sublist_flatMap ofCopied with
      ⟨group, isGroup, both⟩ | ⟨other, own, groupsOrder, ofLater, ofEarlier⟩
    · have ofRules := (both.trans (copiedSources_sublist_ruleSources group)).trans
        (inOrder group isGroup)
      exact absurd ofRules (not_sublist_swap nodup order)
    · rcases mem_copiedSources.mp ofLater with ⟨-, laterTreated⟩
      rcases mem_copiedSources.mp ofEarlier with ⟨conditional, earlierTreated⟩
      exact ⟨own, groupsOrder.subset (by simp), other, groupsOrder.subset (by simp),
        ⟨earlierTreated, conditional⟩, laterTreated, Or.inr groupsOrder⟩
  · -- the later rule forked where it is, the copy of the earlier one in a container block
    rcases same with ⟨rfl, rfl, rfl⟩
    rcases doubled.order ofLimited with
      ⟨-, other, isOther, always, laterTreated⟩ | twice
    · rcases mem_flatMap.mp (singleton_sublist.mp ofCopied) with ⟨own, isOwn, isCopied⟩
      rcases mem_copiedSources.mp isCopied with ⟨conditional, earlierTreated⟩
      exact ⟨own, isOwn, other, isOther, ⟨earlierTreated, conditional⟩, laterTreated,
        Or.inl always⟩
    · exact absurd twice (nodup_iff_sublist.mp nodup later)
  · -- a copy of the earlier rule after the later one among the limited rules
    rcases same with ⟨rfl, rfl, rfl, -⟩
    have inLimited : [later, earlier] <+ later :: later :: earlier :: rest :=
      .cons later (.cons_cons later (.cons_cons earlier (nil_sublist rest)))
    exact absurd (inLimited.trans ofLimited) notReversed

/-- An overtaken rule has its copy after two copies of the later rule, if there
are two. -/
theorem reversed_of_overtakes (doubled : Doubled (AlwaysHolds groups) rules limited)
    (groupsNodup : (groups.flatMap MediaGroup.ruleSources).Nodup) {earlier later : String}
    (order : [earlier, later] <+ rules)
    (twice : [later, later] <+ limited ++ groups.flatMap MediaGroup.copiedSources)
    (overtakes : Overtakes groups later earlier) :
    [later, later, earlier] <+ limited ++ groups.flatMap MediaGroup.copiedSources := by
  rcases overtakes with
    ⟨own, isOwn, other, isOther, ⟨earlierTreated, conditional⟩, laterTreated, isBefore⟩
  have earlierCopied : earlier ∈ own.copiedSources :=
    mem_copiedSources.mpr ⟨conditional, earlierTreated⟩
  by_cases always : other.conditions = []
  · -- the later rule has no copy in a container block, so both copies are limited ones
    have notCopied := not_mem_copied_of_alwaysHolds groupsNodup
      ⟨other, isOther, always, laterTreated⟩
    have bothLimited : [later, later] <+ limited := by
      refine (sublist_append_left_iff ?_).mp twice
      simpa using notCopied
    exact bothLimited.append (singleton_sublist.mpr (mem_flatMap.mpr ⟨own, isOwn, earlierCopied⟩))
  · have groupsOrder : [other, own] <+ groups := isBefore.resolve_left always
    have laterCopied : later ∈ other.copiedSources := mem_copiedSources.mpr ⟨always, laterTreated⟩
    have laterLimited : later ∈ limited := doubled.sublist.subset (order.subset (by simp))
    exact (singleton_sublist.mpr laterLimited).append
      (pair_sublist_of_parts groupsOrder laterCopied earlierCopied)

/-- Rules of a nest without repetition: limited ones, some of them doubled where
they are, and then the copies group by group. -/
theorem cascades_groups (nodup : rules.Nodup)
    (doubled : Doubled (AlwaysHolds groups) rules limited)
    (inOrder : ∀ group ∈ groups, group.ruleSources <+ rules)
    (once : ∀ name, (groups.flatMap MediaGroup.ruleSources).count name ≤ rules.count name) :
    Cascades (Overtakes groups) rules
      (limited ++ groups.flatMap MediaGroup.copiedSources) := by
  have ruleOnce := nodup_iff_count_le_one.mp nodup
  have groupsNodup : (groups.flatMap MediaGroup.ruleSources).Nodup :=
    nodup_iff_count_le_one.mpr fun name => Nat.le_trans (once name) (ruleOnce name)
  constructor
  · intro name
    have limitedLe := doubled.count_le name
    have copiedLe := nodup_iff_count_le_one.mp
      (groupsNodup.sublist (copiedSources_sublist groups)) name
    have ruleLe := ruleOnce name
    rw [count_append]
    by_cases copied : name ∈ groups.flatMap MediaGroup.copiedSources
    · have limitedOnce : ¬ 2 ≤ limited.count name := by
        intro twice
        rcases doubled.order (replicate_sublist_iff.mpr twice) with ⟨-, holds⟩ | both
        · exact not_mem_copied_of_alwaysHolds groupsNodup holds copied
        · exact nodup_iff_sublist.mp nodup name both
      omega
    · have noCopy := count_eq_zero.mpr copied
      omega
  · intro earlier later order twice
    exact ⟨overtakes_of_reversed nodup doubled inOrder groupsNodup order,
      reversed_of_overtakes doubled groupsNodup order twice⟩

end Nest

/-- What holds in each part holds of the whole, if the parts have different
rules and nothing overtakes a rule of another part. -/
theorem cascades_flatMap {ι : Type} {parts : List ι} {rules copies : ι → List String}
    {overtakes : ι → String → String → Prop} (nodup : (parts.flatMap rules).Nodup)
    (within : ∀ part ∈ parts, ∀ name ∈ copies part, name ∈ rules part)
    (ofPart : ∀ part ∈ parts, Cascades (overtakes part) (rules part) (copies part))
    (inPart : ∀ part ∈ parts, ∀ {later earlier}, overtakes part later earlier →
      later ∈ rules part ∧ earlier ∈ rules part) :
    Cascades (fun later earlier => ∃ part ∈ parts, overtakes part later earlier)
      (parts.flatMap rules) (parts.flatMap copies) := by
  constructor
  · intro name
    by_contra exceeds
    have thrice : replicate 3 name <+ parts.flatMap copies :=
      replicate_sublist_iff.mpr (by omega)
    obtain ⟨part, isPart, isCopy⟩ := mem_flatMap.mp (thrice.subset (by simp) : name ∈ _)
    have ofRules : ∀ entry ∈ replicate 3 name, entry ∈ rules part := by
      intro entry isEntry
      rw [eq_of_mem_replicate isEntry]
      exact within part isPart name isCopy
    have inCopies := (sublist_flatMap_iff nodup within isPart ofRules).mp thrice
    have atMost := (ofPart part isPart).count_le name
    have atLeast := replicate_sublist_iff.mp inCopies
    omega
  · intro earlier later order twice
    rcases pair_sublist_flatMap order with
      ⟨part, isPart, partOrder⟩ | ⟨part, other, partsOrder, ofEarlier, ofLater⟩
    · have isEarlier : earlier ∈ rules part := partOrder.subset (by simp)
      have isLater : later ∈ rules part := partOrder.subset (by simp)
      have twiceInPart := (sublist_flatMap_iff nodup within isPart (by simp [isLater])).mp twice
      rw [sublist_flatMap_iff nodup within isPart (by simp [isLater, isEarlier]),
        (ofPart part isPart).reversed_iff partOrder twiceInPart]
      constructor
      · exact fun overtakes => ⟨part, isPart, overtakes⟩
      · rintro ⟨other, isOther, overtakes⟩
        have isLater' := (inPart other isOther overtakes).1
        exact part_eq_of_mem nodup isPart isOther isLater isLater' ▸ overtakes
    · -- rules of different parts are neither together in a part nor ever reversed
      have notTogether : ∀ third ∈ parts, earlier ∈ rules third → later ∉ rules third := by
        intro third isThird isEarlier isLater
        obtain rfl := part_eq_of_mem nodup (partsOrder.subset (by simp)) isThird ofEarlier isEarlier
        exact nodup_iff_sublist.mp nodup later (pair_sublist_of_parts partsOrder isLater ofLater)
      constructor
      · intro reversed
        have swapped : [later, earlier] <+ parts.flatMap copies :=
          (sublist_cons_self later _).trans reversed
        rcases sublist_flatMap_of_share within swapped with ⟨third, isThird, isLater, isEarlier⟩ | inRules
        · exact absurd isLater (notTogether third isThird isEarlier)
        · exact absurd inRules (not_sublist_swap nodup order)
      · rintro ⟨third, isThird, overtakes⟩
        rcases inPart third isThird overtakes with ⟨isLater, isEarlier⟩
        exact absurd isLater (notTogether third isThird isEarlier)

/-! ## Outermost blocks -/

namespace Toggle

variable {toggle : Toggle}

/-- A rule by itself has at most one variant. -/
theorem cascades_rule {name : String} {names : List String}
    (doubled : Doubled (fun _ => True) [name] names) (overtakes : String → String → Prop) :
    Cascades overtakes [name] names := by
  constructor
  · intro other
    have atMost := doubled.count_le other
    have once := nodup_iff_count_le_one.mp (nodup_singleton name) other
    omega
  · intro earlier later order
    have tooLong := order.length_le
    simp at tooLong

/-- The copies of the rules of an outermost media block. -/
theorem cascades_mediaOutcome (place : Place) {source : Option String} {params : String}
    {hasBlock settled : Bool} {children : List Node} (shape : MediaNodes children)
    (sourced : Sourced children) (nodup : (ruleSourcesIn children).Nodup) :
    Cascades
      (Overtakes ((Node.block source (.atRule "media" params hasBlock) settled
        children).mediaGroups toggle.hook []))
      (ruleSourcesIn [.block source (.atRule "media" params hasBlock) settled children])
      (ruleSourcesIn (toggle.mediaOutcome place
        (.block source (.atRule "media" params hasBlock) settled children))) := by
  rw [mediaOutcome, ruleSourcesIn_append, ruleSourcesIn_block (by simp), ruleSourcesIn_nil,
    append_nil, ruleSourcesIn_flatMap]
  cases holds : (Media.conditions toggle.hook params).value with
  | none =>
      rw [limitNode_media_of_none _ _ _ _ _ _ holds, Node.mediaGroups, holds,
        ruleSourcesIn_block (by simp), ruleSourcesIn_nil, append_nil]
      exact cascades_groups nodup (.refl _) (by simp) (by simp)
  | some own =>
      have isNest : (Node.block source (.atRule "media" params hasBlock) settled
          children).mediaGroups toggle.hook [] = nestGroups toggle.hook own children := by
        simp [Node.mediaGroups, holds, nestGroups]
      have ofGroup : ∀ group ∈ nestGroups toggle.hook own children,
          ruleSourcesIn (group.containers toggle place.around) = group.copiedSources := by
        intro group member
        exact ruleSourcesIn_containers toggle place.around
          (forall_descendantsIn_of_group shape.flat member)
          (forall_descendantsIn_of_group sourced member)
      rw [isNest, flatMap_congr ofGroup, limitNode_media_of_some _ _ _ _ _ _ holds,
        ruleSourcesIn_block (by simp), ruleSourcesIn_nil, append_nil, Media.combine_nil_left]
      exact cascades_groups nodup (toggle.doubled_limitNodes shape sourced own source)
        (fun _ member => ruleSources_sublist member) (count_ruleSources_le own children)

/-- The copies in the share of an outermost rule or media block of a plain sheet
without guards. -/
theorem cascades_walkShare (place : Place) {unit : Node} (isUnit : unit.isUnit)
    (plain : Plain [unit]) (unmarked : Unmarked [unit]) (unguarded : Unguarded toggle [unit])
    (sourced : Sourced [unit]) (nodup : (ruleSourcesIn [unit]).Nodup) :
    Cascades (Overtakes (unit.mediaGroups toggle.hook [])) (ruleSourcesIn [unit])
      (ruleSourcesIn (toggle.walkShare place unit)) := by
  rcases unit with _ | ⟨source, _ | selector | ⟨name, params, hasBlock⟩, settled, children⟩
  · cases isUnit
  · cases isUnit
  · obtain ⟨name, rfl⟩ := sourced_rule sourced
    have leaves := (flatRules_rule.mp plain.flat).1
    rcases unmarked_block.mp unmarked with ⟨rfl, -, -⟩
    rw [walkShare, toggle.clearMarksIn_visitBelow_rule _ _ _ _ leaves, outcome, ruleSourcesIn_rule,
      ruleSourcesIn_of_leaves leaves]
    refine cascades_rule ?_ _
    split
    · rw [ruleSourcesIn_rule, ruleSourcesIn_of_leaves leaves]
      exact .refl [name]
    · exact toggle.doubled_forkedRules place.around name selector children leaves
  · have isMedia : (Head.atRule name params hasBlock).isMedia = true := isUnit
    obtain rfl : name = "media" := by simpa [Head.isMedia] using isMedia
    have shape := plain.mediaNodes unmarked isMedia
    rcases unmarked_block.mp unmarked with ⟨rfl, -, -⟩
    rw [ruleSourcesIn_block (by simp), ruleSourcesIn_nil, append_nil] at nodup
    have isOutcome : toggle.walkShare place (.block source (.atRule "media" params hasBlock) false
        children) = toggle.mediaOutcome place (.block source (.atRule "media" params hasBlock) false
          children) :=
      toggle.visitedMedia_eq_mediaOutcome place shape (eachSelector_atRule.mp unguarded).1
    rw [isOutcome]
    exact cascades_mediaOutcome place shape (forall_descendantsIn_block.mp sourced).2.1 nodup

/-- Only rules of a media block overtake each other in it. -/
theorem mem_of_overtakes {hook : Option Media.Hook} {media : Node} {later earlier : String}
    (overtakes : Overtakes (media.mediaGroups hook []) later earlier) :
    later ∈ ruleSourcesIn [media] ∧ earlier ∈ ruleSourcesIn [media] := by
  have ofGroup : ∀ group ∈ media.mediaGroups hook [], group.ruleSources <+ ruleSourcesIn [media] := by
    intro group member
    have inNest : group ∈ nestGroups hook [] [media] := by
      simp [nestGroups, mediaGroupsIn, member]
    exact ruleSources_sublist inNest
  rcases overtakes with ⟨own, isOwn, other, isOther, ⟨ofEarlier, -⟩, ofLater, -⟩
  exact ⟨(ofGroup other isOther).subset ofLater, (ofGroup own isOwn).subset ofEarlier⟩

end Toggle

/-- Two rules of a sheet are in one outermost media block, and the later one
overtakes the earlier one there. -/
def OvertakesIn (hook : Option Media.Hook) (nodes : List Node) (later earlier : String) : Prop :=
  ∃ unit ∈ unitsIn (Place.outside.within none .sheet) nodes,
    Overtakes (unit.2.mediaGroups hook []) later earlier

theorem cascades_runToggle (options : Options) (settled : Bool) {nodes : List Node}
    (plain : Plain nodes) (unmarked : Unmarked nodes)
    (unguarded : Unguarded (Toggle.ofOptions options) nodes) (sourced : Sourced nodes)
    (nodup : (ruleSourcesIn nodes).Nodup) :
    Cascades (OvertakesIn options.hook nodes) (ruleSourcesIn nodes)
      (ruleSourcesIn (runToggle options (.block none .sheet settled nodes)).value.children) := by
  rw [ruleSourcesIn_runToggle options settled unmarked]
  rw [ruleSourcesIn_eq_flatMap (Place.outside.within none .sheet)] at nodup ⊢
  refine cascades_flatMap nodup ?_ ?_ ?_
  · intro unit member
    exact (Toggle.ofOptions options).mem_ruleSourcesIn_walkShare unit.1
      (forall_descendantsIn_of_mem sourced (mem_of_mem_unitsIn member).1)
  · intro unit member
    rcases mem_of_mem_unitsIn member with ⟨isBelow, isUnit⟩
    exact (Toggle.ofOptions options).cascades_walkShare unit.1 isUnit (plain.of_mem isBelow)
      (forall_descendantsIn_of_mem unmarked isBelow) (eachSelector_of_mem unguarded isBelow)
      (forall_descendantsIn_of_mem sourced isBelow) ((nodup_flatMap.mp nodup).1 unit member)
  · exact fun _ _ _ _ overtakes => Toggle.mem_of_overtakes overtakes

/-! ## Sheets with numbered rules -/

/-- The nodes of a sheet without marks, and with a number for every rule in
document order in place of its file. -/
def numbered (children : List Node) : List Node :=
  numberRulesIn 0 (clearMarksIn children)

/-- What a run makes of a sheet with numbered rules: every rule in it has the
number of the rule that it is, or is a copy of. -/
def numberedOutcome (options : Options) (children : List Node) : List Node :=
  (runToggle options (.block none .sheet false (numbered children))).value.children

theorem sameText_numbered (children : List Node) :
    SameText (numbered children) (clearMarksIn children) :=
  sameText_numberRulesIn 0 (clearMarksIn children)

theorem unmarked_numbered (children : List Node) : Unmarked (numbered children) :=
  (sameText_numbered children).unmarked (unmarked_clearMarksIn children)

/-- The numbers do not change what a run makes of a sheet. -/
theorem sameText_numberedOutcome (options : Options) (source : Option String) (settled : Bool)
    (children : List Node) :
    SameText (numberedOutcome options children)
      (runToggle options (.block source .sheet settled children)).value.children := by
  have unnumbered := sameText_runToggle options none source false (sameText_numbered children)
  have sameRun : runToggle options (.block source .sheet false (clearMarksIn children)) =
      runToggle options (.block source .sheet settled children) := by
    simp [runToggle, Node.clearMarks]
  rwa [sameRun] at unnumbered

/-- The order of the variants that a run makes of the rules of a sheet.  Rules that
are in no rule or media block together keep their order, copies included.  In a
plain sheet without guards every rule has at most one variant, and the variant of
a later rule comes before that of an earlier one just if it overtakes it within
an outermost media block. -/
theorem runToggle_cascade (options : Options) (source : Option String) (settled : Bool)
    (children : List Node) :
    SameText (numberedOutcome options children)
        (runToggle options (.block source .sheet settled children)).value.children ∧
      (∀ earlier later, [earlier, later] <+ ruleSourcesIn (numbered children) →
        ¬ Together (numbered children) earlier later →
          ¬ [later, earlier] <+ ruleSourcesIn (numberedOutcome options children)) ∧
      (Plain children → Unguarded (Toggle.ofOptions options) children →
        Cascades (OvertakesIn options.hook (numbered children))
          (ruleSourcesIn (numbered children))
          (ruleSourcesIn (numberedOutcome options children))) := by
  have unmarked := unmarked_numbered children
  have sourced : Sourced (numbered children) := sourced_numberRulesIn 0 _
  have nodup : (ruleSourcesIn (numbered children)).Nodup := nodup_numberRulesIn 0 _
  refine ⟨sameText_numberedOutcome options source settled children, ?_, ?_⟩
  · intro earlier later order apart
    exact not_sublist_runToggle options false unmarked sourced nodup order apart
  · intro plain unguarded
    have clearedUnguarded : Unguarded (Toggle.ofOptions options) (clearMarksIn children) := by
      simpa [EachSelector] using unguarded
    exact cascades_runToggle options false ((sameText_numbered children).plain plain.clearMarksIn)
      unmarked ((sameText_numbered children).eachSelector clearedUnguarded) sourced nodup

/-- A rule with a viewport unit, and with further nodes in it. -/
def wideRule (selector : String) (nested : List Node) : Node :=
  .block none (.rule selector) false
    (.leaf none (.declaration { property := "width", value := "1vw" }) :: nested)

/-- An at-rule around nodes. -/
def blockAround (name params : String) (children : List Node) : Node :=
  .block none (.atRule name params true) false children

/-- A media block with another one in front of its own rule. -/
def innerFirst : List Node :=
  [blockAround "media" "(min-width: 600px)"
    [blockAround "media" "(max-width: 900px)" [wideRule ".p" []], wideRule ".q" []]]

theorem runToggle_cascade_innerFirst :
    Plain innerFirst ∧ Unguarded (Toggle.ofOptions {}) innerFirst ∧
      Cascades (OvertakesIn none (numbered innerFirst)) (ruleSourcesIn (numbered innerFirst))
        (ruleSourcesIn (numberedOutcome {} innerFirst)) := by
  have plain : Plain innerFirst := by decide
  have unguarded : Unguarded (Toggle.ofOptions {}) innerFirst := by decide
  exact ⟨plain, unguarded, (runToggle_cascade {} none false innerFirst).2.2 plain unguarded⟩

/-- The variant of every rule comes before the variants of all later rules. -/
def KeepsOrder (options : Options) (children : List Node) : Prop :=
  ∀ earlier later, [earlier, later] <+ ruleSourcesIn (numbered children) →
    ¬ [later, later, earlier] <+ ruleSourcesIn (numberedOutcome options children)

/-- A rule in a rule. -/
def ruleInRule : List Node :=
  [wideRule ".p" [blockAround "supports" "(display: grid)" [wideRule ".q" []]]]

/-- A media block with another one buried in it. -/
def buriedRules : List Node :=
  [blockAround "media" "(min-width: 600px)"
    [blockAround "supports" "(display: grid)"
      [blockAround "media" "(max-width: 900px)" [wideRule ".p" [], wideRule ".q" []]]]]

/-- A media block with a rule that is guarded already, and with a nest. -/
def guardedNest : List Node :=
  [blockAround "media" "(min-width: 600px)"
    [wideRule "body:not([data-breakpoint-preview-mode]) .x" [],
      blockAround "media" "screen"
        [blockAround "media" "(max-width: 900px)" [wideRule ".p" []],
          blockAround "media" "screen" [wideRule ".q" []]]]]

/-- The order is not kept in every sheet: neither in a plain one without guards, nor
where a rule is in a rule, where a media block is buried, or where a guard stands
in the sheet already. -/
theorem not_keepsOrder :
    ¬ KeepsOrder {} innerFirst ∧ ¬ KeepsOrder {} ruleInRule ∧ ¬ KeepsOrder {} buriedRules ∧
      ¬ KeepsOrder {} guardedNest := by
  refine ⟨?_, ?_, ?_, ?_⟩
  · exact fun keeps => keeps "0" "1" (by decide +kernel) (by decide +kernel)
  · exact fun keeps => keeps "0" "1" (by decide +kernel) (by decide +kernel)
  · exact fun keeps => keeps "0" "1" (by decide +kernel) (by decide +kernel)
  · exact fun keeps => keeps "1" "2" (by decide +kernel) (by decide +kernel)

end ContainerPreview
