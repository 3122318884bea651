import ContainerPreview.Proofs.Sheet.RuleOrder
import ContainerPreview.Proofs.Toggle.Alike

/-!
# Shares of outermost blocks

The rules and media blocks that no rule or media block is around divide the rules
of a sheet among them, and each has a share of what a pass leaves.  The shares
stand in the order of the blocks, and in the share of a block all rules are
copies of rules of that block.  So rules of different blocks keep their order,
copies included.
-/

namespace ContainerPreview

open List

/-! ## Outermost blocks -/

/-- The node is a rule or a media block. -/
def Node.isUnit (node : Node) : Bool :=
  node.isRule || node.isMedia

mutual
/-- The outermost rules and media blocks of a node, each with its place: those
that no rule or media block is around. -/
def Node.units (place : Place) : Node → List (Place × Node)
  | .leaf _ _ => []
  | .block source head settled children =>
      if (Node.block source head settled children).isUnit then
        [(place, .block source head settled children)]
      else unitsIn (place.within source head) children
/-- The outermost rules and media blocks of a list of nodes. -/
def unitsIn (place : Place) : List Node → List (Place × Node)
  | [] => []
  | node :: nodes => node.units place ++ unitsIn place nodes
end

section Units

variable {source : Option String} {head : Head} {settled : Bool} {node : Node}
  {children nodes : List Node}

theorem mem_descendantsIn_of_mem_children {block : Node} (member : block ∈ descendantsIn nodes)
    (below : node ∈ descendantsIn block.children) : node ∈ descendantsIn nodes := by
  induction nodes using forest_induction with
  | nil => cases member
  | leaf source content rest ofRest =>
      rw [descendantsIn_leaf, mem_cons] at member ⊢
      rcases member with rfl | later
      · cases below
      · exact Or.inr (ofRest later)
  | block source head settled children rest ofChildren ofRest =>
      rw [descendantsIn_block, mem_cons, mem_append] at member ⊢
      rcases member with rfl | inside | later
      · exact Or.inr (Or.inl below)
      · exact Or.inr (Or.inl (ofChildren inside))
      · exact Or.inr (Or.inr (ofRest later))

/-- What holds of all nodes holds of each of them with what is below it. -/
theorem forall_descendantsIn_of_mem {P : Node → Prop} (holds : ∀ node ∈ descendantsIn nodes, P node)
    (member : node ∈ descendantsIn nodes) : ∀ below ∈ descendantsIn [node], P below := by
  intro below isBelow
  cases node with
  | leaf source content =>
      rw [descendantsIn_leaf, descendantsIn_nil, mem_singleton] at isBelow
      exact isBelow ▸ holds _ member
  | block source head settled children =>
      rw [descendantsIn_block, descendantsIn_nil, append_nil, mem_cons] at isBelow
      rcases isBelow with rfl | isBelow
      · exact holds _ member
      · exact holds below (mem_descendantsIn_of_mem_children member isBelow)

theorem Plain.of_mem (plain : Plain nodes) (member : node ∈ descendantsIn nodes) : Plain [node] where
  flat := forall_descendantsIn_of_mem plain.flat member
  unburied := forall_descendantsIn_of_mem plain.unburied member
  noSheet := forall_descendantsIn_of_mem plain.noSheet member

theorem eachSelector_of_mem {P : String → Prop} (each : EachSelector P nodes)
    (member : node ∈ descendantsIn nodes) : EachSelector P [node] := by
  intro selector isSelector
  rcases mem_filterMap.mp isSelector with ⟨rule, isBelow, isOwn⟩
  refine each selector (mem_filterMap.mpr ⟨rule, ?_, isOwn⟩)
  exact forall_descendantsIn_of_mem (fun _ isNode => isNode) member rule isBelow

/-- An outermost block is a rule or a media block below the top. -/
theorem mem_of_mem_unitsIn {place : Place} {unit : Place × Node} (member : unit ∈ unitsIn place nodes) :
    unit.2 ∈ descendantsIn nodes ∧ unit.2.isUnit := by
  induction nodes using forest_induction generalizing place with
  | nil => cases member
  | leaf source content rest ofRest =>
      rcases ofRest member with ⟨isBelow, isUnit⟩
      exact ⟨mem_cons_of_mem _ isBelow, isUnit⟩
  | block source head settled children rest ofChildren ofRest =>
      rw [unitsIn, Node.units, mem_append] at member
      rw [descendantsIn_block, mem_cons, mem_append]
      rcases member with here | later
      · split at here
        · rename_i isUnit
          rw [mem_singleton] at here
          exact here ▸ ⟨Or.inl rfl, isUnit⟩
        · rcases ofChildren here with ⟨isBelow, isUnit⟩
          exact ⟨Or.inr (Or.inl isBelow), isUnit⟩
      · rcases ofRest later with ⟨isBelow, isUnit⟩
        exact ⟨Or.inr (Or.inr isBelow), isUnit⟩

/-- The outermost blocks divide the rules among them, in order. -/
theorem ruleSourcesIn_eq_flatMap (place : Place) (nodes : List Node) :
    ruleSourcesIn nodes = (unitsIn place nodes).flatMap fun unit => ruleSourcesIn [unit.2] := by
  induction nodes using forest_induction generalizing place with
  | nil => rfl
  | leaf source content rest ofRest =>
      rw [ruleSourcesIn_leaf, ofRest place]
      rfl
  | block source head settled children rest ofChildren ofRest =>
      rw [ruleSourcesIn_cons, unitsIn, flatMap_append, ← ofRest place, Node.units]
      congr 1
      split
      · simp
      · rename_i noUnit
        have noRule : ∀ selector, head ≠ .rule selector := by
          rintro selector rfl
          exact noUnit rfl
        rw [ruleSourcesIn_block noRule, ruleSourcesIn_nil, append_nil]
        exact ofChildren (place.within source head)

end Units

/-! ## Shares -/

namespace Toggle

variable (toggle : Toggle)

/-- What a walk leaves of the rules is what it leaves of each outermost block. -/
theorem ruleSourcesIn_flatMap_walkShare (place : Place) (nodes : List Node) :
    ruleSourcesIn (nodes.flatMap (toggle.walkShare place)) =
      (unitsIn place nodes).flatMap fun unit =>
        ruleSourcesIn (toggle.walkShare unit.1 unit.2) := by
  induction nodes using forest_induction generalizing place with
  | nil => rfl
  | leaf source content rest ofRest =>
      rw [flatMap_cons, ruleSourcesIn_append, ofRest place, walkShare_leaf]
      rfl
  | block source head settled children rest ofChildren ofRest =>
      rw [flatMap_cons, ruleSourcesIn_append, ofRest place, unitsIn, flatMap_append, Node.units]
      congr 1
      split
      · simp
      · rename_i noUnit
        simp only [Node.isUnit, Bool.not_eq_true, Bool.or_eq_false_iff] at noUnit
        have noRule : ∀ selector, head ≠ .rule selector := by
          rintro selector rfl
          cases noUnit.1
        rw [toggle.walkShare_other place source head settled children noUnit.1 noUnit.2,
          ruleSourcesIn_block noRule, ruleSourcesIn_nil, append_nil]
        exact ofChildren (place.within source head)

/-- In what a walk leaves of a node, all rules are copies of rules of the node. -/
theorem mem_ruleSourcesIn_walkShare (place : Place) {node : Node} (sourced : Sourced [node]) :
    ∀ name ∈ ruleSourcesIn (toggle.walkShare place node), name ∈ ruleSourcesIn [node] := by
  let ofNode : Option String → Option String → Prop := fun source source' =>
    source = source' ∧ ∃ name ∈ ruleSourcesIn [node], source = some name
  have persist : FilesPersist ofNode := by
    rintro _ _ ⟨rfl, name, member, rfl⟩ file file'
    exact ⟨rfl, name, member, rfl⟩
  have alike : Alike ofNode [node] [node] := by
    refine Alike.self fun below isBelow isRule => ⟨rfl, ?_⟩
    obtain ⟨name, isName⟩ := Option.isSome_iff_exists.mp (sourced below isBelow isRule)
    exact ⟨name, mem_ruleSourcesIn.mpr ⟨below, isBelow, isRule, isName⟩, isName⟩
  intro name member
  obtain ⟨below, isBelow, isRule, isName⟩ := mem_ruleSourcesIn.mp member
  have shareAlike := toggle.alike_walkShare persist place place.around alike
  obtain ⟨_, rfl, own, isOwn, same⟩ := shareAlike.forall_isRule below isBelow isRule
  rw [isName, Option.some.injEq] at same
  exact same ▸ isOwn

end Toggle

/-- What a run leaves of the rules of a sheet is what a walk leaves of each
outermost block.  The context rule has the file of the sheet; here that is
none. -/
theorem ruleSourcesIn_runToggle (options : Options) (settled : Bool) {nodes : List Node}
    (unmarked : Unmarked nodes) :
    ruleSourcesIn (runToggle options (.block none .sheet settled nodes)).value.children =
      (unitsIn (Place.outside.within none .sheet) nodes).flatMap fun unit =>
        ruleSourcesIn ((Toggle.ofOptions options).walkShare unit.1 unit.2) := by
  have noName : ruleSourcesIn ((Toggle.ofOptions options).addedContext none nodes) = [] := by
    rw [Toggle.addedContext]
    split <;> simp
  rw [value_runToggle_eq_flatMap, Node.children, ruleSourcesIn_append, noName, nil_append,
    clearMarksIn_of_unmarked unmarked, Toggle.ruleSourcesIn_flatMap_walkShare]

/-! ## Order between outermost blocks -/

/-- Two rules are in one rule or media block. -/
def Together (nodes : List Node) (first second : String) : Prop :=
  ∃ block ∈ descendantsIn nodes, block.isUnit ∧
    first ∈ ruleSourcesIn [block] ∧ second ∈ ruleSourcesIn [block]

/-- Rules that are in no rule or media block together keep their order in a run:
no copy of the later one comes before a copy of the earlier one. -/
theorem not_sublist_runToggle (options : Options) (settled : Bool) {nodes : List Node}
    (unmarked : Unmarked nodes) (sourced : Sourced nodes) (nodup : (ruleSourcesIn nodes).Nodup)
    {earlier later : String} (order : [earlier, later] <+ ruleSourcesIn nodes)
    (apart : ¬ Together nodes earlier later) :
    ¬ [later, earlier] <+
      ruleSourcesIn (runToggle options (.block none .sheet settled nodes)).value.children := by
  intro reversed
  rw [ruleSourcesIn_runToggle options settled unmarked] at reversed
  have within : ∀ unit ∈ unitsIn (Place.outside.within none .sheet) nodes,
      ∀ name ∈ ruleSourcesIn ((Toggle.ofOptions options).walkShare unit.1 unit.2),
        name ∈ ruleSourcesIn [unit.2] := by
    intro unit member
    exact (Toggle.ofOptions options).mem_ruleSourcesIn_walkShare unit.1
      (forall_descendantsIn_of_mem sourced (mem_of_mem_unitsIn member).1)
  rcases sublist_flatMap_of_share within reversed with ⟨unit, member, ofLater, ofEarlier⟩ | swapped
  · rcases mem_of_mem_unitsIn member with ⟨isBelow, isUnit⟩
    exact apart ⟨unit.2, isBelow, isUnit, ofEarlier, ofLater⟩
  · rw [← ruleSourcesIn_eq_flatMap] at swapped
    exact not_sublist_swap nodup order swapped

end ContainerPreview
