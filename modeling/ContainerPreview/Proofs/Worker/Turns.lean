import ContainerPreview.Proofs.Worker.Tagged

/-!
# Steps on the children of a block

Most steps of a pass work on a row of children of a block, which may stand between other children,
and turn it into another row.  What they do to a part of a row, or to the children of a block in the
row, they do to the whole.
-/

namespace ContainerPreview

namespace Tagged

/-- The entry of the top of a tree. -/
def top (parent : Option NodeId) : Tagged → Entry
  | .leaf id source content => ⟨id, { kind := .leaf content, source, parent }, false⟩
  | .block id source head settled children =>
      ⟨id, { kind := .block head, source, parent, children := children.map Tagged.id }, settled⟩

/-- The entries of the nodes below the top of a tree. -/
def deeper : Tagged → List Entry
  | .leaf _ _ _ => []
  | .block id _ _ _ children => entriesIn (some id) children

variable {parent : Option NodeId} {row : List Tagged}

theorem entries_eq (tree : Tagged) : tree.entries parent = tree.top parent :: tree.deeper := by
  cases tree <;> rfl

@[simp]
theorem id_top (tree : Tagged) : (tree.top parent).id = tree.id := by
  cases tree <;> rfl

@[simp]
theorem deeper_inherit (file : Option String) (tree : Tagged) :
    (tree.inherit file).deeper = tree.deeper := by
  cases tree <;> rfl

theorem top_mem_entriesIn {tree : Tagged} (member : tree ∈ row) :
    tree.top parent ∈ entriesIn parent row := by
  obtain ⟨left, right, rfl⟩ := List.append_of_mem member
  rw [entriesIn_append, entriesIn_cons, entries_eq]
  simp

/-- The entries of a row are those of the tops and those of the nodes below them. -/
theorem entriesIn_perm (parent : Option NodeId) (row : List Tagged) :
    (entriesIn parent row).Perm (row.map (top parent) ++ row.flatMap deeper) := by
  induction row with
  | nil => exact .refl _
  | cons tree trees inductionHypothesis =>
      rw [entriesIn_cons, entries_eq, List.map_cons, List.flatMap_cons]
      refine .cons _ ((List.Perm.append_left _ inductionHypothesis).trans ?_)
      simpa using List.perm_append_comm.append_right (trees.flatMap deeper)

theorem map_id_sublist_idsOf (row : List Tagged) : (row.map Tagged.id).Sublist (idsOf row) := by
  induction row with
  | nil => exact .slnil
  | cons tree trees inductionHypothesis =>
      cases tree with
      | leaf id source content => exact inductionHypothesis.cons_cons id
      | block id source head settled children =>
          rw [idsOf_block]
          exact (inductionHypothesis.trans (List.sublist_append_right ..)).cons_cons id

end Tagged

open Tagged

namespace Entry

@[simp]
theorem map_id_part (holder : Entry) (front back : List NodeId) (row : List Tagged) :
    (holder.part front back row).map Entry.id = holder.id :: idsOf row := by
  simp [part, withChildren, map_id_eq_idsOf]

/-- The left part of a row, as a row that has the right part behind it. -/
theorem part_append (holder : Entry) (front back : List NodeId) (left right : List Tagged) :
    holder.part front back (left ++ right) =
      holder.part front (right.map Tagged.id ++ back) left ++ entriesIn (some holder.id) right := by
  simp [part]

theorem part_append_perm (holder : Entry) (front back : List NodeId) (left right : List Tagged) :
    (holder.part front back (left ++ right)).Perm
      (holder.part (front ++ left.map Tagged.id) back right ++
        entriesIn (some holder.id) left) := by
  simpa [part] using List.perm_append_comm

/-- A tree in a row, apart from the block around it. -/
theorem part_single_perm (holder : Entry) (front back : List NodeId) (tree : Tagged) :
    (holder.part front back [tree]).Perm
      (tree.entries (some holder.id) ++ [holder.withChildren (front ++ tree.id :: back)]) := by
  simpa [part] using
    @List.perm_append_comm _ [holder.withChildren (front ++ tree.id :: back)]
      (tree.entries holder.id)

/-- A tree among others in a row, apart from all else. -/
theorem part_middle_perm (holder : Entry) (front back : List NodeId) (left right : List Tagged)
    (tree : Tagged) :
    (holder.part front back (left ++ tree :: right)).Perm
      (tree.entries (some holder.id) ++
        (holder.withChildren (front ++ (left ++ tree :: right).map Tagged.id ++ back) ::
          entriesIn (some holder.id) (left ++ right))) := by
  refine Stage.perm_of_coe ?_
  simp only [part, entriesIn_append, entriesIn_cons, ← Multiset.coe_add, ← Multiset.cons_coe,
    ← Multiset.singleton_add]
  abel

end Entry

/-- The entries of a tree in a row. -/
theorem Stage.Holds.ofSingle {stage : Stage} {holder : Entry} {front back : List NodeId}
    {tree : Tagged} (holds : stage.Holds (holder.part front back [tree])) :
    stage.Holds (tree.entries (some holder.id)) :=
  entriesIn_singleton _ tree ▸ holds.tail

namespace Step

open Stage

/-! ## Steps that keep to a shape -/

section Shape

variable {α β σ : Type} {step step' : Step α} {next : α → Step β} {stage : Stage}
  {shape : σ → List Entry} {state : σ} {post : α → σ → Prop} {post' : β → σ → Prop}

/-- The step succeeds, and what entries of some shape say becomes what others of the shape say. -/
def Turns (step : Step α) (stage : Stage) (shape : σ → List Entry) (state : σ)
    (post : α → σ → Prop) : Prop :=
  Makes step stage (shape state) fun value after =>
    ∃ turned, after = shape turned ∧ post value turned

namespace Turns

theorem pure (holds : stage.Holds (shape state)) {value : α} (isPost : post value state) :
    Turns (Pure.pure value : Step α) stage shape state post :=
  Makes.pure holds ⟨state, rfl, isPost⟩

theorem bind (first : Turns step stage shape state post)
    (second : ∀ value stage' turned, stage'.Holds (shape turned) → post value turned →
      Turns (next value) stage' shape turned post') :
    Turns (step >>= next) stage shape state post' := by
  refine Makes.bind first ?_
  rintro value stage' after reshapes ⟨turned, rfl, isPost⟩
  exact second value stage' turned reshapes.holds isPost

theorem get {next : Stage → Step β} (turns : Turns (next stage) stage shape state post') :
    Turns (MonadState.get >>= next) stage shape state post' :=
  Makes.get turns

/-- The stack reaches so deep into a value. -/
theorem reach (depth : Nat) (holds : stage.Holds (shape state)) :
    Turns (Step.reach depth) stage shape state fun _ turned => turned = state :=
  ⟨depth, (), stage, _, ends_reach depth stage, .refl holds, state, rfl, rfl⟩

theorem mono {post' : α → σ → Prop} (turns : Turns step stage shape state post)
    (weaker : ∀ value turned, post value turned → post' value turned) :
    Turns step stage shape state post' := by
  refine Makes.mono turns ?_
  rintro value after ⟨turned, rfl, isPost⟩
  exact ⟨turned, rfl, weaker value turned isPost⟩

end Turns

end Shape

/-! ## Steps on rows of children -/

variable {α : Type} {step : Step α} {stage : Stage} {holder : Entry} {parent : Option NodeId}
  {front back : List NodeId} {row left right children : List Tagged} {tree : Tagged}

namespace Turns

variable (right) in
/-- What turns the left part of a row turns the row. -/
theorem onLeft {post : α → List Tagged → Prop}
    (turns : Turns step stage (holder.part front (right.map Tagged.id ++ back)) left post)
    (holds : stage.Holds (holder.part front back (left ++ right))) :
    Turns step stage (holder.part front back) (left ++ right) fun value turned =>
      ∃ left', turned = left' ++ right ∧ post value left' := by
  refine Makes.within turns (.of_eq (Entry.part_append ..)) holds ?_
  rintro value after ⟨left', rfl, isPost⟩
  exact ⟨_, .of_eq (Entry.part_append ..).symm, left' ++ right, rfl, left', rfl, isPost⟩

variable (left) in
/-- What turns the right part of a row turns the row. -/
theorem onRight {post : α → List Tagged → Prop}
    (turns : Turns step stage (holder.part (front ++ left.map Tagged.id) back) right post)
    (holds : stage.Holds (holder.part front back (left ++ right))) :
    Turns step stage (holder.part front back) (left ++ right) fun value turned =>
      ∃ right', turned = left ++ right' ∧ post value right' := by
  refine Makes.within turns (Entry.part_append_perm ..) holds ?_
  rintro value after ⟨right', rfl, isPost⟩
  exact ⟨_, (Entry.part_append_perm ..).symm, left ++ right', rfl, right', rfl, isPost⟩

/-- What turns a tree turns a row of this tree. -/
theorem single {post : α → Tagged → Prop}
    (turns : Turns step stage (Tagged.entries (some holder.id)) tree post)
    (sameId : ∀ value turned, post value turned → turned.id = tree.id)
    (holds : stage.Holds (holder.part front back [tree])) :
    Turns step stage (holder.part front back) [tree] fun value turned =>
      ∃ tree', turned = [tree'] ∧ post value tree' := by
  refine Makes.within turns (Entry.part_single_perm ..) holds ?_
  rintro value after ⟨tree', rfl, isPost⟩
  exact ⟨_, sameId value tree' isPost ▸ (Entry.part_single_perm ..).symm, [tree'], rfl, tree', rfl,
    isPost⟩

/-- What turns a tree into a certain tree does the same in a row. -/
theorem singleEq {tree' : Tagged}
    (turns : Turns step stage (Tagged.entries (some holder.id)) tree fun _ turned => turned = tree')
    (sameId : tree'.id = tree.id) (holds : stage.Holds (holder.part front back [tree])) :
    Turns step stage (holder.part front back) [tree] fun _ turned => turned = [tree'] := by
  refine (turns.single ?_ holds).mono ?_
  · rintro _ _ rfl
    exact sameId
  · rintro _ _ ⟨_, rfl, rfl⟩
    rfl

/-- What turns the children of a block turns the block. -/
theorem below {post : α → List Tagged → Prop} {id : NodeId} {source : Option String} {head : Head}
    {settled : Bool}
    (turns : Turns step stage ((holderOf parent id source head settled).part [] []) children post) :
    Turns step stage (Tagged.entries parent) (.block id source head settled children)
      fun value turned =>
        ∃ children', turned = .block id source head settled children' ∧ post value children' := by
  rw [Turns, entries_block]
  refine Makes.mono turns ?_
  rintro value after ⟨children', rfl, isPost⟩
  exact ⟨_, (entries_block ..).symm, children', rfl, isPost⟩

/-- What turns the children of the first block of a row turns the row. -/
theorem inFirst {post : α → List Tagged → Prop} {id : NodeId} {source : Option String}
    {head : Head} {settled : Bool} {rest : List Tagged}
    (holds : stage.Holds (holder.part front back (.block id source head settled children :: rest)))
    (turns : stage.Holds ((holderOf (some holder.id) id source head settled).part [] [] children) →
      Turns step stage ((holderOf (some holder.id) id source head settled).part [] []) children
        post) :
    Turns step stage (holder.part front back) (.block id source head settled children :: rest)
      fun value turned =>
        ∃ children', turned = .block id source head settled children' :: rest ∧
          post value children' := by
  have holdsFirst := (Entry.part_append holder front back [_] rest ▸ holds).left
  have holdsBelow : stage.Holds ((holderOf (some holder.id) id source head settled).part
      [] [] children) := by
    rw [← entries_block]
    exact holdsFirst.ofSingle
  refine (((turns holdsBelow).below.single ?_ holdsFirst).onLeft rest holds).mono ?_
  · rintro value _ ⟨children', rfl, -⟩
    rfl
  · rintro value _ ⟨_, rfl, _, rfl, children', rfl, isPost⟩
    exact ⟨children', rfl, isPost⟩

end Turns

end Step

end ContainerPreview
