import ContainerPreview.Proofs.Forest.Linked
import Mathlib.Data.List.Nodup

/-!
# The nodes below a node

In a linked forest the nodes below a node can be listed in document order: every child before
those below it, and the children in their order.  The list has every descendant once.

On a way down no node is passed twice, so no way is longer than the forest has nodes, and a
function that goes down as many levels comes to an end everywhere.
-/

namespace ContainerPreview

namespace Forest

variable {forest : Forest} {id child other ancestor : NodeId} {passed : List NodeId}

/-! ## Ways down -/

/-- The nodes passed on the way down to a node. -/
structure IsWayTo (forest : Forest) (passed : List NodeId) (id : NodeId) : Prop where
  nodup : passed.Nodup
  above : ∀ node ∈ passed, forest.IsAncestor node id

theorem IsWayTo.nil (forest : Forest) (id : NodeId) : IsWayTo forest [] id :=
  ⟨List.nodup_nil, List.forall_mem_nil _⟩

namespace WellLinked

variable (linked : WellLinked forest)

include linked

theorem isParent_iff : forest.IsParent id child ↔ child ∈ forest.children id :=
  (linked.mem_children_iff id child).symm

theorem inUse_of_isAncestor (isAncestor : forest.IsAncestor ancestor id) :
    ancestor < forest.size := by
  obtain ⟨child, isParent, -⟩ := Relation.TransGen.head'_iff.mp isAncestor
  exact inUse_of_mem_children (linked.isParent_iff.mp isParent)

theorem nodup_way (way : IsWayTo forest passed id) : (id :: passed).Nodup :=
  List.nodup_cons.mpr ⟨fun again => linked.acyclic id (way.above id again), way.nodup⟩

/-- One step further down. -/
theorem way_down (way : IsWayTo forest passed id) (member : child ∈ forest.children id) :
    IsWayTo forest (id :: passed) child where
  nodup := linked.nodup_way way
  above := by
    have isParent : forest.IsParent id child := linked.isParent_iff.mpr member
    exact List.forall_mem_cons.mpr
      ⟨.single isParent, fun node isPassed => (way.above node isPassed).tail isParent⟩

/-- A node, the nodes passed on the way to it, and its children are distinct nodes in use. -/
theorem length_children_add_way_lt (way : IsWayTo forest passed id) (inUse : id < forest.size) :
    (forest.children id).length + passed.length < forest.size := by
  have apart : ∀ child ∈ forest.children id, ∀ node ∈ id :: passed, child ≠ node := by
    rintro child member node isPassed rfl
    exact linked.acyclic child ((linked.way_down way member).above child isPassed)
  have nodup : (forest.children id ++ id :: passed).Nodup :=
    List.nodup_append.mpr ⟨linked.nodup id, linked.nodup_way way, apart⟩
  have within : forest.children id ++ id :: passed ⊆ List.range forest.size := by
    refine List.append_subset.mpr ⟨fun child member => ?_, List.cons_subset.mpr ⟨?_, ?_⟩⟩
    · exact List.mem_range.mpr (linked.sound.inUse id child member)
    · exact List.mem_range.mpr inUse
    · exact fun node isPassed =>
        List.mem_range.mpr (linked.inUse_of_isAncestor (way.above node isPassed))
  have atMost := (List.Nodup.subperm nodup within).length_le
  rw [List.length_append, List.length_cons, List.length_range] at atMost
  omega

/-- A way as long as the forest has nodes goes no further. -/
theorem children_eq_nil_of_way (way : IsWayTo forest passed id)
    (isLong : forest.size ≤ passed.length) : forest.children id = [] := by
  refine List.eq_nil_iff_forall_not_mem.mpr fun child member => ?_
  have few := linked.length_children_add_way_lt way (inUse_of_mem_children member)
  omega

/-- What is no container has no children. -/
theorem children_eq_nil_of_leaf (isLeaf : (forest.cell id).kind.isContainer = false) :
    forest.children id = [] :=
  List.eq_nil_iff_forall_not_mem.mpr fun child member =>
    Bool.false_ne_true (isLeaf.symm.trans (linked.isContainer id child member))

end WellLinked

/-! ## Document order -/

/-- The nodes below a node in document order. -/
def below (forest : Forest) (id : NodeId) : List NodeId :=
  forest.belowTo forest.size id

theorem belowTo_of_children (noChildren : forest.children id = []) (levels : Nat) :
    forest.belowTo levels id = [] := by
  cases levels with
  | zero => rfl
  | succ levels => rw [belowTo, noChildren, List.flatMap_nil]

theorem isAncestor_of_mem_belowTo (linked : WellLinked forest) {levels : Nat}
    (member : other ∈ forest.belowTo levels id) : forest.IsAncestor id other := by
  induction levels generalizing id with
  | zero => cases member
  | succ levels inductionHypothesis =>
      obtain ⟨child, isChild, member⟩ := List.mem_flatMap.mp member
      have isParent : forest.IsParent id child := linked.isParent_iff.mpr isChild
      rcases List.mem_cons.mp member with rfl | isBelow
      · exact .single isParent
      · exact .head isParent (inductionHypothesis isBelow)

/-- Once there are enough levels, further ones add nothing. -/
theorem belowTo_eq_of_enough (linked : WellLinked forest) (way : IsWayTo forest passed id)
    {levels levels' : Nat} (enough : forest.size ≤ levels + passed.length)
    (enough' : forest.size ≤ levels' + passed.length) :
    forest.belowTo levels id = forest.belowTo levels' id := by
  induction levels generalizing id passed levels' with
  | zero =>
      have noChildren := linked.children_eq_nil_of_way way (by simpa using enough)
      rw [belowTo_of_children noChildren, belowTo_of_children noChildren]
  | succ levels inductionHypothesis =>
      cases levels' with
      | zero =>
          have noChildren := linked.children_eq_nil_of_way way (by simpa using enough')
          rw [belowTo_of_children noChildren, belowTo_of_children noChildren]
      | succ levels' =>
          rw [belowTo, belowTo]
          refine List.flatMap_congr fun child member => ?_
          have longer : (id :: passed).length = passed.length + 1 := List.length_cons
          have same : forest.belowTo levels child = forest.belowTo levels' child :=
            inductionHypothesis (linked.way_down way member) (by omega) (by omega)
          rw [same]

theorem below_eq (linked : WellLinked forest) (id : NodeId) :
    forest.below id = (forest.children id).flatMap fun child => child :: forest.below child := by
  have oneMore : forest.belowTo forest.size id = forest.belowTo (forest.size + 1) id :=
    belowTo_eq_of_enough linked (.nil forest id) (by simp) (by simp)
  exact oneMore

/-- Below a node are the nodes that it stands above. -/
theorem mem_below_iff (linked : WellLinked forest) :
    other ∈ forest.below id ↔ forest.IsAncestor id other := by
  refine ⟨isAncestor_of_mem_belowTo linked, fun isAncestor => ?_⟩
  induction isAncestor using Relation.TransGen.head_induction_on with
  | single isParent =>
      rw [below_eq linked, List.mem_flatMap]
      exact ⟨_, linked.isParent_iff.mp isParent, List.mem_cons_self⟩
  | head isParent _ isBelow =>
      rw [below_eq linked, List.mem_flatMap]
      exact ⟨_, linked.isParent_iff.mp isParent, List.mem_cons_of_mem _ isBelow⟩

/-- Of two nodes above a third, or that node itself, one stands above the other. -/
theorem isAncestor_total (first : Relation.ReflTransGen forest.IsParent id other)
    (second : Relation.ReflTransGen forest.IsParent child other) :
    Relation.ReflTransGen forest.IsParent id child ∨
      Relation.ReflTransGen forest.IsParent child id := by
  have upwards : Relator.RightUnique (Function.swap forest.IsParent) :=
    fun _ _ _ isParent isParent' => Option.some.inj (isParent.symm.trans isParent')
  rw [← Relation.reflTransGen_swap] at first second
  rcases Relation.ReflTransGen.total_of_right_unique upwards first second with up | up
  · exact .inr (Relation.reflTransGen_swap.mp up)
  · exact .inl (Relation.reflTransGen_swap.mp up)

/-- No child of a node stands above another one. -/
theorem eq_of_siblings (linked : WellLinked forest) {parent : NodeId}
    (isParent : forest.IsParent parent id) (isParent' : forest.IsParent parent child)
    (above : Relation.ReflTransGen forest.IsParent id child) : id = child := by
  rcases Relation.ReflTransGen.cases_tail above with rfl | ⟨holder, orAbove, isHolder⟩
  · rfl
  · obtain rfl : parent = holder := Option.some.inj (isParent'.symm.trans isHolder)
    exact absurd (Relation.TransGen.head' isParent orAbove) (linked.acyclic parent)

theorem nodup_belowTo (linked : WellLinked forest) (levels : Nat) (id : NodeId) :
    (forest.belowTo levels id).Nodup := by
  induction levels generalizing id with
  | zero => exact List.nodup_nil
  | succ levels inductionHypothesis =>
      have orBelow : ∀ {child node}, node ∈ child :: forest.belowTo levels child →
          Relation.ReflTransGen forest.IsParent child node := by
        intro child node member
        rcases List.mem_cons.mp member with rfl | isBelow
        · exact .refl
        · exact (isAncestor_of_mem_belowTo linked isBelow).to_reflTransGen
      rw [belowTo, List.nodup_flatMap]
      refine ⟨fun child _ => List.nodup_cons.mpr ⟨fun again => ?_, inductionHypothesis child⟩, ?_⟩
      · exact linked.acyclic child (isAncestor_of_mem_belowTo linked again)
      · refine (linked.nodup id).imp_of_mem fun {first second} isFirst isSecond different => ?_
        intro node belowFirst belowSecond
        have isParent : forest.IsParent id first := linked.isParent_iff.mpr isFirst
        have isParent' : forest.IsParent id second := linked.isParent_iff.mpr isSecond
        rcases isAncestor_total (orBelow belowFirst) (orBelow belowSecond) with above | above
        · exact different (eq_of_siblings linked isParent isParent' above)
        · exact different (eq_of_siblings linked isParent' isParent above).symm

theorem nodup_below (linked : WellLinked forest) (id : NodeId) : (forest.below id).Nodup :=
  nodup_belowTo linked forest.size id

end Forest

end ContainerPreview
