import ContainerPreview.Proofs.Forest.Operation
import Mathlib.Data.List.Perm.Subperm
import Mathlib.Logic.Relation
import Mathlib.Tactic.SplitIfs

/-!
# Linked forests

In a linked forest children and parents say the same, no node stands in two places, and
nobody who goes from parent to parent comes back.  Every sequence of edits that succeed
leads to a linked forest.

While an edit takes nodes for a container, these have it as their parent already and are
not yet among its children.  An edit that fails leaves them so; one that succeeds puts them
in.  Taking a node makes no cycle because a container does not take what it stands below.
-/

namespace ContainerPreview

/-- An edit in two parts succeeds if both do. -/
theorem Edit.exists_of_apply_bind {α β : Type} {edit : Edit α} {next : α → Edit β}
    {forest forest' : Forest} {value : β}
    (done : (edit >>= next).apply forest = (.ok value, forest')) :
    ∃ first middle, edit.apply forest = (.ok first, middle) ∧
      (next first).apply middle = (.ok value, forest') := by
  rw [Edit.apply_bind] at done
  split at done
  · rename_i first middle isFirst
    exact ⟨first, middle, isFirst, done⟩
  · cases done

namespace Forest

variable {forest forest' removed : Forest} {container child id other : NodeId}
  {nodes taken : List NodeId}

/-! ## The way up -/

/-- One node is the parent of another. -/
def IsParent (forest : Forest) (parent child : NodeId) : Prop :=
  forest.parent? child = some parent

/-- One node is above another: its parent, or the parent of one above it. -/
def IsAncestor (forest : Forest) (ancestor descendant : NodeId) : Prop :=
  Relation.TransGen forest.IsParent ancestor descendant

theorem inUse_of_isParent (isParent : forest.IsParent container child) : child < forest.size := by
  refine Nat.lt_of_not_le fun unused => ?_
  simp only [size] at unused
  simp [IsParent, parent?, cell, unused] at isParent

theorem exists_parent_of_isAncestor {ancestor : NodeId}
    (isAncestor : forest.IsAncestor ancestor id) :
    ∃ parent, forest.IsParent parent id ∧
      (parent = ancestor ∨ forest.IsAncestor ancestor parent) := by
  cases isAncestor with
  | single isParent => exact ⟨ancestor, isParent, .inl rfl⟩
  | tail isAbove isParent => exact ⟨_, isParent, .inr isAbove⟩

/-- A search that looks up often enough finds every ancestor.  The nodes that it has passed
are all below the one it is at, so they are distinct as long as nobody comes back. -/
theorem isAbove_of_isAncestor (acyclic : ∀ node, ¬ forest.IsAncestor node node)
    {ancestor levels : Nat} {passed : List NodeId} (nodup : passed.Nodup)
    (below : ∀ node ∈ passed, forest.IsAncestor id node)
    (enough : forest.size ≤ passed.length + levels) (isAncestor : forest.IsAncestor ancestor id) :
    forest.isAbove ancestor levels id := by
  have nodup' : (id :: passed).Nodup :=
    List.nodup_cons.mpr ⟨fun again => acyclic id (below id again), nodup⟩
  obtain ⟨parent, isParent, orAbove⟩ := exists_parent_of_isAncestor isAncestor
  induction levels generalizing id passed parent with
  | zero =>
      have within : id :: passed ⊆ List.range forest.size := by
        refine List.cons_subset.mpr
          ⟨List.mem_range.mpr (inUse_of_isParent isParent), fun node isPassed => ?_⟩
        obtain ⟨holder, isHolder, -⟩ := exists_parent_of_isAncestor (below node isPassed)
        exact List.mem_range.mpr (inUse_of_isParent isHolder)
      have atMost := (List.Nodup.subperm nodup' within).length_le
      rw [List.length_cons, List.length_range] at atMost
      omega
  | succ levels inductionHypothesis =>
      have isSome : forest.parent? id = some parent := isParent
      rw [isAbove, isSome]
      rcases orAbove with rfl | isAncestor
      · simp
      · have below' : ∀ node ∈ id :: passed, forest.IsAncestor parent node :=
          List.forall_mem_cons.mpr
            ⟨.single isParent, fun node isPassed => .head isParent (below node isPassed)⟩
        have enough' : forest.size ≤ (id :: passed).length + levels := by
          rw [List.length_cons]
          omega
        have nodup'' : (parent :: id :: passed).Nodup :=
          List.nodup_cons.mpr ⟨fun again => acyclic parent (below' parent again), nodup'⟩
        obtain ⟨next, isNext, nextOrAbove⟩ := exists_parent_of_isAncestor isAncestor
        have found := inductionHypothesis nodup' below' enough' isAncestor nodup'' next isNext
          nextOrAbove
        simp [found]

/-- If one node gets a new parent, a way up goes on as it did or leads over the new link. -/
theorem isAncestor_of_relinked
    (links : ∀ parent node, forest'.IsParent parent node →
      forest.IsParent parent node ∨ parent = container ∧ node = id)
    {ancestor descendant : NodeId} (isAncestor : forest'.IsAncestor ancestor descendant) :
    forest.IsAncestor ancestor descendant ∨
      Relation.ReflTransGen forest.IsParent ancestor container ∧
        Relation.ReflTransGen forest.IsParent id descendant := by
  induction isAncestor with
  | single isParent =>
      rcases links _ _ isParent with isOld | ⟨rfl, rfl⟩
      · exact .inl (.single isOld)
      · exact .inr ⟨.refl, .refl⟩
  | tail _ isParent inductionHypothesis =>
      rcases links _ _ isParent with isOld | ⟨rfl, rfl⟩
      · exact inductionHypothesis.imp (·.tail isOld) fun ways => ⟨ways.1, ways.2.tail isOld⟩
      · exact .inr ⟨inductionHypothesis.elim Relation.TransGen.to_reflTransGen And.left, .refl⟩

theorem acyclic_of_relinked (acyclic : ∀ node, ¬ forest.IsAncestor node node)
    (different : id ≠ container) (notBelow : ¬ forest.IsAncestor id container)
    (links : ∀ parent node, forest'.IsParent parent node →
      forest.IsParent parent node ∨ parent = container ∧ node = id) (node : NodeId) :
    ¬ forest'.IsAncestor node node := by
  intro isAncestor
  rcases isAncestor_of_relinked links isAncestor with isOld | ⟨fromContainer, toNode⟩
  · exact acyclic node isOld
  · rcases Relation.reflTransGen_iff_eq_or_transGen.mp (toNode.trans fromContainer) with
      same | isAncestor
    · exact different same.symm
    · exact notBelow isAncestor

/-! ## Links -/

/-- The links of a forest are consistent: a container's children are the nodes that have it as
their parent, none stands twice among the children of one container or of two, only
containers have children, and no way up comes back. -/
structure WellLinked (forest : Forest) : Prop where
  mem_children_iff : ∀ container child,
    child ∈ forest.children container ↔ forest.parent? child = some container
  nodup : ∀ container, (forest.children container).Nodup
  unique : ∀ container other child,
    child ∈ forest.children container → child ∈ forest.children other → container = other
  isContainer : ∀ container child,
    child ∈ forest.children container → (forest.cell container).kind.isContainer
  acyclic : ∀ node, ¬ forest.IsAncestor node node

/-- The forest is linked but for nodes that have been taken for a container and are still to
be put in. -/
structure Taking (forest : Forest) (container : NodeId) (taken : List NodeId) : Prop where
  sound : forest.Sound
  pending : Pending forest container taken
  mem_of_isParent : ∀ parent child, forest.IsParent parent child →
    child ∈ forest.children parent ∨ parent = container ∧ child ∈ taken
  isContainer : ∀ parent child, forest.IsParent parent child →
    (forest.cell parent).kind.isContainer
  acyclic : ∀ node, ¬ forest.IsAncestor node node

theorem WellLinked.sound (linked : WellLinked forest) : Sound forest where
  nodup := linked.nodup
  parent container child := (linked.mem_children_iff container child).mp
  inUse container child member :=
    inUse_of_isParent ((linked.mem_children_iff container child).mp member)

theorem WellLinked.taking (linked : WellLinked forest) (container : NodeId) :
    Taking forest container [] where
  sound := linked.sound
  pending := .nil forest container
  mem_of_isParent parent child isParent :=
    .inl ((linked.mem_children_iff parent child).mpr isParent)
  isContainer parent child isParent :=
    linked.isContainer parent child ((linked.mem_children_iff parent child).mpr isParent)
  acyclic := linked.acyclic

/-- Once nothing is left to be put in, the forest is linked. -/
theorem Taking.wellLinked (taking : Taking forest container []) : WellLinked forest where
  mem_children_iff parent child := by
    refine ⟨taking.sound.parent parent child, fun isParent => ?_⟩
    exact (taking.mem_of_isParent parent child isParent).resolve_right fun isTaken =>
      nomatch isTaken.2
  nodup := taking.sound.nodup
  unique first second child isFirst isSecond := by
    have same := (taking.sound.parent first child isFirst).symm.trans
      (taking.sound.parent second child isSecond)
    exact Option.some.inj same
  isContainer parent child member :=
    taking.isContainer parent child (taking.sound.parent parent child member)
  acyclic := taking.acyclic

/-! ## Steps -/

theorem isContainer_update_of_same (forest : Forest) (change : Cell → Cell)
    (same : ∀ cell, (change cell).kind = cell.kind) (id other : NodeId) :
    ((forest.update id change).cell other).kind.isContainer =
      (forest.cell other).kind.isContainer :=
  congrArg Kind.isContainer (field_update Cell.kind same forest id other)

theorem TakesOut.kind_eq (takesOut : TakesOut id forest removed) (other : NodeId) :
    (removed.cell other).kind = (forest.cell other).kind := by
  cases takesOut with
  | alone => rfl
  | child => exact field_detach Cell.kind (fun _ _ _ => rfl) (fun _ => rfl) _ _ _ _ _

theorem TakesOut.isContainer_eq (takesOut : TakesOut id forest removed) (other : NodeId) :
    (removed.cell other).kind.isContainer = (forest.cell other).kind.isContainer :=
  congrArg Kind.isContainer (takesOut.kind_eq other)

theorem TakesOut.mem_children_iff (takesOut : TakesOut id forest removed) (sound : Sound forest) :
    child ∈ removed.children other ↔ child ≠ id ∧ child ∈ forest.children other := by
  cases takesOut with
  | alone noParent =>
      refine ⟨fun member => ⟨?_, member⟩, And.right⟩
      rintro rfl
      rw [sound.parent other child member] at noParent
      cases noParent
  | child isChild => exact sound.mem_children_detach isChild

theorem TakesOut.isParent_iff (takesOut : TakesOut id forest removed) (sound : Sound forest) :
    removed.IsParent container child ↔ child ≠ id ∧ forest.IsParent container child := by
  cases takesOut with
  | alone noParent =>
      refine ⟨fun isParent => ⟨?_, isParent⟩, And.right⟩
      rintro rfl
      exact nomatch noParent.symm.trans isParent
  | child isChild =>
      have inUse := sound.inUse _ id (List.mem_of_getElem? isChild)
      rw [IsParent, parent?_detach _ _ _ _ inUse]
      split
      · rename_i same
        exact ⟨nofun, fun both => absurd same both.1⟩
      · rename_i different
        exact ⟨fun isParent => ⟨different, isParent⟩, And.right⟩

/-- Taking a node out breaks one link and leaves the others alone. -/
theorem WellLinked.takesOut (linked : WellLinked forest) (takesOut : TakesOut id forest removed) :
    WellLinked removed := by
  have sound := linked.sound
  have isOld : removed.IsParent ≤ forest.IsParent := fun parent child isParent =>
    ((takesOut.isParent_iff sound).mp isParent).2
  refine (⟨sound.takesOut takesOut, .nil _ _, ?_, ?_, ?_⟩ : Taking removed 0 []).wellLinked
  · intro parent child isParent
    obtain ⟨different, isParent⟩ := (takesOut.isParent_iff sound).mp isParent
    exact .inl ((takesOut.mem_children_iff sound).mpr
      ⟨different, (linked.mem_children_iff parent child).mpr isParent⟩)
  · intro parent child isParent
    rw [takesOut.isContainer_eq]
    exact linked.isContainer parent child
      ((linked.mem_children_iff parent child).mpr (isOld parent child isParent))
  · exact fun node again => linked.acyclic node (Relation.TransGen.mono isOld node node again)

/-- A container may take what it neither is nor stands below. -/
theorem Taking.not_isAncestor_of_mayAdopt (taking : Taking forest container taken)
    (may : forest.mayAdopt container id) : id ≠ container ∧ ¬ forest.IsAncestor id container := by
  simp only [mayAdopt, Bool.not_eq_true', Bool.or_eq_false_iff, beq_eq_false_iff_ne,
    Bool.and_eq_false_iff] at may
  refine ⟨may.1, fun isAncestor => ?_⟩
  obtain ⟨child, isParent, -⟩ := Relation.TransGen.head'_iff.mp isAncestor
  rcases may.2 with noContainer | notAbove
  · rw [taking.isContainer id child isParent] at noContainer
    cases noContainer
  · have isAbove : forest.isAbove id forest.size container :=
      isAbove_of_isAncestor taking.acyclic List.nodup_nil (by simp) (by simp) isAncestor
    rw [notAbove] at isAbove
    cases isAbove

/-- Taking one more node for a container. -/
theorem Taking.claim (taking : Taking forest container taken)
    (isContainer : (forest.cell container).kind.isContainer) (inUse : id < forest.size)
    (may : forest.mayAdopt container id) (takesOut : TakesOut id forest removed) :
    Taking (removed.claim container id) container (taken ++ [id]) := by
  have sound := taking.sound
  have inUse' : id < removed.size := takesOut.size_eq ▸ inUse
  have isLinked : ∀ parent child, (removed.claim container id).IsParent parent child ↔
      (child ≠ id ∧ forest.IsParent parent child) ∨ (parent = container ∧ child = id) := by
    intro parent child
    rw [IsParent, parent?_claim _ _ _ inUse']
    split
    · rename_i same
      subst same
      simp [eq_comm]
    · rename_i different
      rw [← IsParent, takesOut.isParent_iff sound]
      simp [different]
  have kept : ∀ other, ((removed.claim container id).cell other).kind.isContainer =
      (forest.cell other).kind.isContainer := fun other => by
    rw [Forest.claim, isContainer_update_of_same _ _ (by simp), takesOut.isContainer_eq]
  refine ⟨?_, taking.pending.claim sound inUse takesOut, ?_, ?_, ?_⟩
  · exact (sound.takesOut takesOut).claim container inUse' (sound.loose_of_takesOut takesOut)
  · intro parent child isParent
    rcases (isLinked parent child).mp isParent with ⟨different, isOld⟩ | ⟨rfl, rfl⟩
    · rw [children_claim, takesOut.mem_children_iff sound]
      refine (taking.mem_of_isParent parent child isOld).imp (⟨different, ·⟩) fun isTaken => ?_
      exact ⟨isTaken.1, List.mem_append_left _ isTaken.2⟩
    · exact .inr ⟨rfl, by simp⟩
  · intro parent child isParent
    rw [kept]
    rcases (isLinked parent child).mp isParent with ⟨-, isOld⟩ | ⟨rfl, -⟩
    · exact taking.isContainer parent child isOld
    · exact isContainer
  · obtain ⟨different, notBelow⟩ := taking.not_isAncestor_of_mayAdopt may
    exact acyclic_of_relinked taking.acyclic different notBelow fun parent node isParent =>
      ((isLinked parent node).mp isParent).imp_left And.right

/-- Putting in what has been taken. -/
theorem Taking.put (taking : Taking forest container taken) (inUse : container < forest.size)
    (index : Nat) (move : Int → Int) :
    WellLinked (forest.put container index taken move) := by
  refine (⟨taking.sound.put taking.pending index move, .nil _ _, ?_, ?_, ?_⟩ :
    Taking _ container []).wellLinked
  · intro parent child isParent
    rw [IsParent, parent?_put] at isParent
    refine .inl ?_
    rcases taking.mem_of_isParent parent child isParent with member | ⟨rfl, isTaken⟩
    · by_cases same : parent = container
      · subst same
        rw [← List.take_append_drop index (forest.children parent)] at member
        rw [children_put_self _ _ _ _ _ inUse]
        simp only [List.mem_append] at member ⊢
        tauto
      · rwa [children_put_of_ne _ _ _ _ _ same]
    · rw [children_put_self _ _ _ _ _ inUse]
      simp [isTaken]
  · intro parent child isParent
    rw [IsParent, parent?_put] at isParent
    rw [Forest.put, isContainer_update_of_same _ _ (by simp [Cell.splice, Cell.moveCursors])]
    exact taking.isContainer parent child isParent
  · have same : (forest.put container index taken move).IsParent = forest.IsParent := by
      funext parent child
      rw [IsParent, parent?_put, IsParent]
    intro node
    rw [IsAncestor, same]
    exact taking.acyclic node

/-! ## Edits -/

/-- A row of nodes taken for a container. -/
theorem Taking.adopt (taking : Taking forest container taken)
    (isContainer : (forest.cell container).kind.isContainer)
    (inUse : ∀ node ∈ nodes, node < forest.size)
    (adopted : (Forest.adopt container nodes).apply forest = (.ok (), forest')) :
    Taking forest' container (taken ++ nodes) ∧ forest'.size = forest.size := by
  induction nodes generalizing forest taken with
  | nil =>
      cases adopted
      exact ⟨by simpa using taking, rfl⟩
  | cons id ids inductionHypothesis =>
      obtain ⟨here, later⟩ := List.forall_mem_cons.mp inUse
      rw [apply_adopt_cons, apply_adoptOne] at adopted
      by_cases may : forest.mayAdopt container id
      · rw [if_pos may] at adopted
        rcases apply_remove_cases forest id with ⟨error, failed⟩ | ⟨removed, takesOut, isRemoved⟩
        · rw [failed] at adopted
          cases adopted
        · rw [isRemoved] at adopted
          have claimed := taking.claim isContainer here may takesOut
          have sameSize : (removed.claim container id).size = forest.size := by
            rw [size_claim, takesOut.size_eq]
          have sameKind : ((removed.claim container id).cell container).kind.isContainer := by
            rwa [Forest.claim, isContainer_update_of_same _ _ (by simp), takesOut.isContainer_eq]
          have others := inductionHypothesis claimed sameKind (sameSize ▸ later) adopted
          rw [List.append_assoc, sameSize] at others
          exact others
      · rw [if_neg may] at adopted
        cases adopted

/-- An edit that takes nodes and puts them in, if it succeeds. -/
theorem WellLinked.places (linked : WellLinked forest) {edit : Edit Unit}
    {place : Forest → Except EditError (Nat × (Int → Int))}
    (places : Places edit container nodes place)
    (isContainer : (forest.cell container).kind.isContainer)
    (inUse : ∀ node ∈ container :: nodes, node < forest.size)
    (edited : edit.apply forest = (.ok (), forest')) :
    WellLinked forest' ∧ forest'.size = forest.size := by
  obtain ⟨containerInUse, inUse⟩ := List.forall_mem_cons.mp inUse
  rw [places] at edited
  rcases isTaken : (Forest.adopt container nodes).apply forest with ⟨error | _, taken⟩
  · rw [isTaken] at edited
    cases edited
  · obtain ⟨taking, sameSize⟩ := (linked.taking container).adopt isContainer inUse isTaken
    rw [isTaken] at edited
    dsimp only at edited
    rcases isPlace : place taken with error | ⟨index, move⟩
    · rw [isPlace] at edited
      cases edited
    · rw [isPlace] at edited
      cases edited
      exact ⟨taking.put (sameSize ▸ containerInUse) index move, by rw [size_put, sameSize]⟩

theorem WellLinked.removeChild (linked : WellLinked forest)
    (edited : (Forest.removeChild container child).apply forest = (.ok (), forest')) :
    WellLinked forest' := by
  rcases apply_removeChild_cases forest container child with ⟨error, failed⟩ |
    ⟨removed, takesOut, isRemoved⟩
  · rw [failed] at edited
    cases edited
  · rw [isRemoved] at edited
    cases edited
    exact linked.takesOut takesOut

theorem WellLinked.remove (linked : WellLinked forest)
    (edited : (Forest.remove id).apply forest = (.ok (), forest')) : WellLinked forest' := by
  rcases apply_remove_cases forest id with ⟨error, failed⟩ | ⟨removed, takesOut, isRemoved⟩
  · rw [failed] at edited
    cases edited
  · rw [isRemoved] at edited
    cases edited
    exact linked.takesOut takesOut

/-- An edit beside a node is one of the children of its parent. -/
theorem WellLinked.exists_parent {α : Type} (linked : WellLinked forest) {next : NodeId → Edit α}
    {value : α} (done : (requireParent id >>= next).apply forest = (.ok value, forest')) :
    ∃ parent, (forest.cell parent).kind.isContainer ∧ parent < forest.size ∧
      (next parent).apply forest = (.ok value, forest') := by
  rw [apply_requireParent_bind] at done
  cases isParent : forest.parent? id with
  | none =>
      rw [isParent] at done
      cases done
  | some parent =>
      rw [isParent] at done
      have member := (linked.mem_children_iff parent id).mpr isParent
      exact ⟨parent, linked.isContainer parent id member, inUse_of_mem_children member, done⟩

/-- A new node has no links. -/
theorem WellLinked.add (linked : WellLinked forest) (kind : Kind) (source : Option String) :
    WellLinked (forest.add { kind, source }) := by
  have sound := linked.sound
  have isOld : (forest.add { kind, source }).IsParent ≤ forest.IsParent := by
    intro parent child isParent
    simp only [IsParent, parent?, cell_add] at isParent
    split at isParent
    · cases isParent
    · exact isParent
  have old : ∀ parent child, forest.IsParent parent child → parent ≠ forest.size :=
    fun parent child isParent =>
      Nat.ne_of_lt (inUse_of_mem_children ((linked.mem_children_iff parent child).mpr isParent))
  refine (⟨sound.add kind source, .nil _ _, ?_, ?_, ?_⟩ : Taking _ 0 []).wellLinked
  · intro parent child isParent
    have isParent := isOld parent child isParent
    left
    simpa [children, cell_add, old parent child isParent] using
      (linked.mem_children_iff parent child).mpr isParent
  · intro parent child isParent
    have isParent := isOld parent child isParent
    rw [cell_add, if_neg (old parent child isParent)]
    exact linked.isContainer parent child ((linked.mem_children_iff parent child).mpr isParent)
  · exact fun node again => linked.acyclic node (Relation.TransGen.mono isOld node node again)

/-- Changing what a node is leaves its links alone, if a container remains one. -/
theorem WellLinked.update (linked : WellLinked forest) (id : NodeId) (change : Cell → Cell)
    (children : ∀ cell, (change cell).children = cell.children)
    (parent : ∀ cell, (change cell).parent = cell.parent)
    (kind : (change (forest.cell id)).kind.isContainer = (forest.cell id).kind.isContainer) :
    WellLinked (forest.update id change) := by
  have sameChildren := children_update_of_same forest change children id
  have sameParent := parent?_update_of_same forest change parent id
  have sameLinks : (forest.update id change).IsParent = forest.IsParent := by
    funext container child
    rw [IsParent, sameParent, IsParent]
  refine ⟨fun container child => ?_, fun container => ?_, fun container other child => ?_,
    fun container child => ?_, fun node => ?_⟩
  · rw [sameChildren, sameParent]
    exact linked.mem_children_iff container child
  · rw [sameChildren]
    exact linked.nodup container
  · rw [sameChildren, sameChildren]
    exact linked.unique container other child
  · rw [sameChildren, cell_update]
    intro member
    have isContainer := linked.isContainer container child member
    split
    · rename_i here
      rw [here.1] at isContainer ⊢
      rw [kind]
      exact isContainer
    · exact isContainer
  · rw [IsAncestor, sameLinks]
    exact linked.acyclic node

/-! ## Making and copying nodes -/

theorem WellLinked.createWith (linked : WellLinked forest) {kind : Kind} {source : Option String}
    (isContainer : nodes = [] ∨ kind.isContainer) (inUse : ∀ node ∈ nodes, node < forest.size)
    (made : (Forest.createWith kind source nodes).apply forest = (.ok id, forest')) :
    WellLinked forest' ∧ forest'.size = forest.size + 1 ∧ id < forest'.size := by
  obtain ⟨new, added, isAdded, appended⟩ := Edit.exists_of_apply_bind made
  obtain ⟨_, after, appended, isResult⟩ := Edit.exists_of_apply_bind appended
  cases isAdded
  cases isResult
  have linked' := linked.add kind source
  rcases isContainer with rfl | isContainer
  · cases appended
    exact ⟨linked'.update forest.size _ (by simp) (by simp) rfl, by simp, by simp⟩
  · have isNew : ((forest.add { kind, source }).cell forest.size).kind.isContainer := by
      rwa [cell_add, if_pos rfl]
    have inUse' : ∀ node ∈ forest.size :: nodes, node < (forest.add { kind, source }).size := by
      rw [size_add]
      exact List.forall_mem_cons.mpr
        ⟨Nat.lt_succ_self _, fun node member => Nat.lt_succ_of_lt (inUse node member)⟩
    obtain ⟨placed, sameSize⟩ :=
      linked'.places (places_append forest.size nodes) isNew inUse' appended
    rw [size_add] at sameSize
    exact ⟨placed, sameSize, sameSize ▸ Nat.lt_succ_self _⟩

/-- An edit with a new node as its result leaves linked forests linked. -/
def KeepsLinks (edit : Edit NodeId) : Prop :=
  ∀ forest id forest', WellLinked forest → edit.apply forest = (.ok id, forest') →
    WellLinked forest' ∧ forest.size ≤ forest'.size ∧ id < forest'.size

theorem WellLinked.mapM {edit : NodeId → Edit NodeId} (keeps : ∀ node, KeepsLinks (edit node))
    (linked : WellLinked forest) {copies : List NodeId}
    (edited : (nodes.mapM edit).apply forest = (.ok copies, forest')) :
    WellLinked forest' ∧ forest.size ≤ forest'.size ∧ ∀ copy ∈ copies, copy < forest'.size := by
  induction nodes generalizing forest copies with
  | nil =>
      cases edited
      exact ⟨linked, Nat.le_refl _, by simp⟩
  | cons node nodes inductionHypothesis =>
      rw [List.mapM_cons] at edited
      obtain ⟨copy, middle, first, edited⟩ := Edit.exists_of_apply_bind edited
      obtain ⟨others, last, edited, isResult⟩ := Edit.exists_of_apply_bind edited
      cases isResult
      obtain ⟨linked', grows, isNew⟩ := keeps node _ _ _ linked first
      obtain ⟨linked'', grows', areNew⟩ := inductionHypothesis linked' edited
      exact ⟨linked'', Nat.le_trans grows grows',
        List.forall_mem_cons.mpr ⟨Nat.lt_of_lt_of_le isNew grows', areNew⟩⟩

/-- Copies are new nodes, linked among themselves. -/
theorem keepsLinks_copyTo (levels : Nat) (id : NodeId) : KeepsLinks (copyTo levels id) := by
  induction levels generalizing id with
  | zero =>
      intro forest copy forest' _ copied
      cases copied
  | succ levels inductionHypothesis =>
      intro forest copy forest' linked copied
      obtain ⟨_, _, isForest, copied⟩ := Edit.exists_of_apply_bind copied
      cases isForest
      dsimp only at copied
      split at copied
      · cases copied
      · cases copied
      · cases copied
        exact ⟨linked.add _ _, by simp, by simp⟩
      · obtain ⟨copies, middle, below, made⟩ := Edit.exists_of_apply_bind copied
        obtain ⟨linked', grows, areNew⟩ := linked.mapM inductionHypothesis below
        obtain ⟨linked'', isMore, isNew⟩ := linked'.createWith (.inr rfl) areNew made
        exact ⟨linked'', by omega, isNew⟩

/-- The field of a node that is overwritten is none of its links. -/
theorem eq_of_setField? {cell changed : Cell} {field : String} {value : FieldValue}
    (isSet : setField? cell field value = some changed) :
    changed = { cell with kind := changed.kind, source := changed.source } ∧
      changed.kind.isContainer = cell.kind.isContainer := by
  rw [setField?] at isSet
  split at isSet
  · cases isSet
    exact ⟨rfl, rfl⟩
  · obtain ⟨kind, isKind, rfl⟩ := Option.map_eq_some_iff.mp isSet
    refine ⟨rfl, ?_⟩
    unfold setContent? at isKind
    split at isKind <;> cases isKind <;> simp_all [Kind.isContainer]

/-- The attribute of a copy that is overwritten is none of its links. -/
theorem eq_of_overwrite {cell changed : Cell} {kindName name : String} {value : FieldValue}
    (isSet : overwrite kindName cell name value = .ok changed) :
    changed = { cell with kind := changed.kind, source := changed.source, covers := changed.covers } ∧
      changed.kind.isContainer = cell.kind.isContainer := by
  rw [overwrite] at isSet
  split at isSet
  · cases isSet
  · rw [setAttribute] at isSet
    split at isSet
    · rename_i isField
      obtain rfl := Except.ok.inj isSet
      obtain ⟨same, sameKind⟩ := eq_of_setField? isField
      exact ⟨by rw [same], sameKind⟩
    · split_ifs at isSet
      cases isSet
      exact ⟨rfl, rfl⟩

theorem apply_override_cons (forest : Forest) (kindName : String) (id : NodeId)
    (entry : String × FieldValue) (overrides : List (String × FieldValue)) :
    (override kindName id (entry :: overrides)).apply forest =
      match overwrite kindName (forest.cell id) entry.1 entry.2 with
      | .ok changed => (override kindName id overrides).apply (forest.update id fun _ => changed)
      | .error error => (.error error, forest) := by
  rw [override, Edit.apply_bind, Edit.apply_get]
  dsimp only
  cases overwrite kindName (forest.cell id) entry.1 entry.2 with
  | ok changed =>
      dsimp only
      rw [Edit.apply_bind, Edit.apply_change]
  | error error => rfl

theorem WellLinked.override (linked : WellLinked forest) {kindName : String}
    {overrides : List (String × FieldValue)}
    (overridden : (Forest.override kindName id overrides).apply forest = (.ok (), forest')) :
    WellLinked forest' := by
  induction overrides generalizing forest with
  | nil =>
      cases overridden
      exact linked
  | cons entry overrides inductionHypothesis =>
      rw [apply_override_cons] at overridden
      split at overridden
      · rename_i changed isSet
        obtain ⟨same, sameKind⟩ := eq_of_overwrite isSet
        have sameUpdate : forest.update id (fun _ => changed) = forest.update id fun cell =>
            { cell with
              kind := changed.kind, source := changed.source, covers := changed.covers } :=
          update_congr same
        refine inductionHypothesis ?_ overridden
        rw [sameUpdate]
        exact linked.update id _ (fun _ => rfl) (fun _ => rfl) sameKind
      · cases overridden

theorem WellLinked.clone (linked : WellLinked forest) {copy : NodeId}
    {overrides : List (String × FieldValue)}
    (cloned : (Forest.clone id overrides).apply forest = (.ok copy, forest')) :
    WellLinked forest' := by
  obtain ⟨_, _, isForest, cloned⟩ := Edit.exists_of_apply_bind cloned
  cases isForest
  obtain ⟨first, middle, copied, cloned⟩ := Edit.exists_of_apply_bind cloned
  obtain ⟨_, _, isMiddle, cloned⟩ := Edit.exists_of_apply_bind cloned
  cases isMiddle
  obtain ⟨_, last, overridden, isResult⟩ := Edit.exists_of_apply_bind cloned
  cases isResult
  exact (keepsLinks_copyTo _ _ _ _ _ linked copied).1.override overridden

/-! ## Sequences of edits -/

/-- Anything that can be done to the nodes of a forest: making one out of existing ones,
moving and removing them, and copying one. -/
inductive Action where
  | make (kind : Kind) (source : Option String) (nodes : List NodeId)
  | operate (operation : Operation)
  | clone (id : NodeId) (overrides : List (String × FieldValue))

/-- The containers whose children an operation is asked to change. -/
def Operation.containers : Operation → List NodeId
  | .append container _ | .prepend container _ | .insertBefore container _ _
  | .insertAfter container _ _ | .removeChild container _ => [container]
  | _ => []

namespace Action

/-- The edit that an action is. -/
def edit : Action → Edit Unit
  | .make kind source nodes => discard (createWith kind source nodes)
  | .operate operation => operation.edit
  | .clone id overrides => discard (Forest.clone id overrides)

/-- Only nodes in use can be named, and only a container can be given or asked to give up
children. -/
def isAllowed (forest : Forest) : Action → Bool
  | .make kind _ nodes => (nodes.isEmpty || kind.isContainer) && nodes.all (· < forest.size)
  | .operate operation =>
      operation.isAllowed forest &&
        operation.containers.all fun container => (forest.cell container).kind.isContainer
  | .clone id _ => id < forest.size

end Action

theorem WellLinked.operate (linked : WellLinked forest) {operation : Operation}
    (allowed : (Action.operate operation).isAllowed forest)
    (done : operation.edit.apply forest = (.ok (), forest')) : WellLinked forest' := by
  obtain ⟨inUse, areContainers⟩ := Bool.and_eq_true_iff.mp allowed
  simp only [Operation.isAllowed, List.all_eq_true, decide_eq_true_eq] at inUse areContainers
  cases operation with
  | create kind source =>
      cases done
      exact linked.add kind source
  | append container nodes =>
      exact (linked.places (places_append container nodes)
        (areContainers container List.mem_cons_self) inUse done).1
  | prepend container nodes =>
      exact (linked.places (places_prepend container nodes)
        (areContainers container List.mem_cons_self) inUse done).1
  | insertBefore container existing nodes =>
      obtain ⟨containerInUse, others⟩ := List.forall_mem_cons.mp inUse
      exact (linked.places (places_insertBefore container existing nodes)
        (areContainers container List.mem_cons_self)
        (List.forall_mem_cons.mpr ⟨containerInUse, (List.forall_mem_cons.mp others).2⟩) done).1
  | insertAfter container existing nodes =>
      obtain ⟨containerInUse, others⟩ := List.forall_mem_cons.mp inUse
      exact (linked.places (places_insertAfter container existing nodes)
        (areContainers container List.mem_cons_self)
        (List.forall_mem_cons.mpr ⟨containerInUse, (List.forall_mem_cons.mp others).2⟩) done).1
  | removeChild container child => exact linked.removeChild done
  | remove id => exact linked.remove done
  | before id nodes =>
      obtain ⟨parent, isContainer, parentInUse, done⟩ := linked.exists_parent done
      exact (linked.places (places_insertBefore parent id nodes) isContainer
        (List.forall_mem_cons.mpr ⟨parentInUse, (List.forall_mem_cons.mp inUse).2⟩) done).1
  | after id nodes =>
      obtain ⟨parent, isContainer, parentInUse, done⟩ := linked.exists_parent done
      exact (linked.places (places_insertAfter parent id nodes) isContainer
        (List.forall_mem_cons.mpr ⟨parentInUse, (List.forall_mem_cons.mp inUse).2⟩) done).1
  | replaceWith id nodes =>
      obtain ⟨parent, isContainer, parentInUse, done⟩ := linked.exists_parent done
      obtain ⟨_, middle, inserted, removed⟩ := Edit.exists_of_apply_bind done
      have linked' := (linked.places (places_insertBefore parent id nodes) isContainer
        (List.forall_mem_cons.mpr ⟨parentInUse, (List.forall_mem_cons.mp inUse).2⟩) inserted).1
      exact linked'.removeChild removed

/-- One action that succeeds. -/
theorem WellLinked.act (linked : WellLinked forest) {action : Action}
    (allowed : action.isAllowed forest) (done : action.edit.apply forest = (.ok (), forest')) :
    WellLinked forest' := by
  cases action with
  | make kind source nodes =>
      simp only [Action.isAllowed, Bool.and_eq_true, Bool.or_eq_true, List.isEmpty_iff,
        List.all_eq_true, decide_eq_true_eq] at allowed
      obtain ⟨id, _, made, isResult⟩ := Edit.exists_of_apply_bind done
      cases isResult
      exact (linked.createWith allowed.1 allowed.2 made).1
  | operate operation => exact linked.operate allowed done
  | clone id overrides =>
      obtain ⟨copy, _, cloned, isResult⟩ := Edit.exists_of_apply_bind done
      cases isResult
      exact linked.clone cloned

theorem wellLinked_empty : WellLinked {} := by
  have none : ∀ id, ({} : Forest).cell id = {} := fun id => by simp [cell]
  refine ⟨?_, ?_, ?_, ?_, fun node again => ?_⟩
  · simp [children, parent?, none]
  · simp [children, none]
  · simp [children, none]
  · simp [children, none]
  · obtain ⟨parent, isParent, -⟩ := exists_parent_of_isAncestor again
    simp [IsParent, parent?, none] at isParent

/-- The forests that sequences of successful actions lead to.  Between two actions a walk may
open, move or close a cursor. -/
inductive Reachable : Forest → Prop
  | empty : Reachable {}
  | act {forest forest' : Forest} (before : Reachable forest) (action : Action)
      (allowed : action.isAllowed forest) (done : action.edit.apply forest = (.ok (), forest')) :
      Reachable forest'
  | walk {forest : Forest} (before : Reachable forest) (container : NodeId)
      (cursors : List Cursor) (nextKey : Nat) :
      Reachable ({ forest with nextKey }.update container fun cell => { cell with cursors })

/-- The forest after actions, if all of them are allowed and succeed. -/
def after? : List Action → Forest → Option Forest
  | [], forest => some forest
  | action :: actions, forest =>
      if action.isAllowed forest then
        match action.edit.apply forest with
        | (.ok (), changed) => after? actions changed
        | (.error _, _) => none
      else none

/-- What every successful action keeps is kept by a row of them. -/
theorem of_after? {P : Forest → Prop}
    (act : ∀ {forest forest' : Forest} (action : Action), P forest → action.isAllowed forest →
      action.edit.apply forest = (.ok (), forest') → P forest')
    {actions : List Action} (before : P forest)
    (succeed : after? actions forest = some forest') : P forest' := by
  induction actions generalizing forest with
  | nil =>
      cases succeed
      exact before
  | cons action actions inductionHypothesis =>
      rw [after?] at succeed
      split at succeed
      · rename_i allowed
        split at succeed
        · rename_i done
          exact inductionHypothesis (act action before allowed done) succeed
        · cases succeed
      · cases succeed

theorem Reachable.after {actions : List Action} (before : Reachable forest)
    (succeed : after? actions forest = some forest') : Reachable forest' :=
  of_after? (fun action before allowed done => before.act action allowed done) before succeed

/-- Whatever is done to a forest, as long as it succeeds, its links are consistent. -/
theorem wellLinked_of_reachable (reachable : Reachable forest) : WellLinked forest := by
  induction reachable with
  | empty => exact wellLinked_empty
  | act _ action allowed done linked => exact linked.act allowed done
  | @walk forest _ container cursors nextKey linked =>
      have rekeyed : WellLinked { forest with nextKey } := { linked with }
      exact rekeyed.update container _ (fun _ => rfl) (fun _ => rfl) rfl

/-- A declaration is put into a rule, the rule into a sheet, and a copy of the rule in front of
it, whose declaration then goes over into the rule. -/
def copiedActions : List Action :=
  [.make (.block .sheet) none [],
    .make (.leaf (.declaration ⟨"width", "1vw", false⟩)) none [],
    .make (.block (.rule "a")) none [1],
    .operate (.append 0 [2]),
    .clone 2 [("selector", .text "b")],
    .operate (.before 2 [4]),
    .operate (.insertAfter 2 1 [3])]

/-- The sheet with the two rules, both declarations in the second one. -/
def copiedForest : Forest :=
  { cells := #[{ kind := .block .sheet, children := [4, 2] },
      { kind := .leaf (.declaration ⟨"width", "1vw", false⟩), parent := some 2 },
      { kind := .block (.rule "a"), parent := some 0, children := [1, 3] },
      { kind := .leaf (.declaration ⟨"width", "1vw", false⟩), parent := some 2 },
      { kind := .block (.rule "b"), parent := some 0 }] }

theorem wellLinked_copiedForest : WellLinked copiedForest :=
  of_after? (fun _ linked allowed done => linked.act allowed done) wellLinked_empty
    (show after? copiedActions {} = some copiedForest by rfl)

theorem wellLinked_of_reachable_copiedForest :
    Reachable copiedForest ∧ WellLinked copiedForest := by
  have reachable : Reachable copiedForest :=
    Reachable.empty.after (show after? copiedActions {} = some copiedForest by rfl)
  exact ⟨reachable, wellLinked_of_reachable reachable⟩

end Forest

end ContainerPreview
