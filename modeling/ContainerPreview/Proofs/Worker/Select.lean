import ContainerPreview.Proofs.Worker.Turns

/-!
# What a pass reads, and its loops

Below a node a pass finds the declarations, selector lists and rules of the tree at the node.  A
loop over nodes that have been found like this, which works on one of them after another, does to
their tree what a recursion over the tree does, even though it changes nodes above those that are
still to come.
-/

namespace ContainerPreview

open Tagged

/-- What a node is. -/
def Node.kind : Node → Kind
  | .leaf _ content => .leaf content
  | .block _ head _ _ => .block head

namespace Tagged

mutual
/-- The numbers of the nodes of a tree that are picked by what they are and by whether they stand
directly in keyframes.  The flag tells whether the top does. -/
def pickedIn (pick : Bool → Kind → Bool) (inKeyframes : Bool) : Tagged → List NodeId
  | .leaf id _ content => if pick inKeyframes (.leaf content) then [id] else []
  | .block id _ head _ children =>
      (if pick inKeyframes (.block head) then [id] else []) ++
        select pick head.isKeyframes children
/-- The numbers of the nodes of trees that are picked. -/
def select (pick : Bool → Kind → Bool) (inKeyframes : Bool) : List Tagged → List NodeId
  | [] => []
  | tree :: trees => tree.pickedIn pick inKeyframes ++ select pick inKeyframes trees
end

variable {pick : Bool → Kind → Bool} {inKeyframes : Bool}

@[simp]
theorem select_leaf (id : NodeId) (source : Option String) (content : Leaf) (rest : List Tagged) :
    select pick inKeyframes (.leaf id source content :: rest) =
      (if pick inKeyframes (.leaf content) then [id] else []) ++ select pick inKeyframes rest :=
  rfl

@[simp]
theorem select_block (id : NodeId) (source : Option String) (head : Head) (settled : Bool)
    (children rest : List Tagged) :
    select pick inKeyframes (.block id source head settled children :: rest) =
      (if pick inKeyframes (.block head) then [id] else []) ++
        (select pick head.isKeyframes children ++ select pick inKeyframes rest) :=
  List.append_assoc ..

theorem select_append (left right : List Tagged) :
    select pick inKeyframes (left ++ right) =
      select pick inKeyframes left ++ select pick inKeyframes right := by
  induction left with
  | nil => rfl
  | cons tree trees inductionHypothesis =>
      rw [List.cons_append, select, inductionHypothesis, select, List.append_assoc]

end Tagged

/-- How far the stack has to reach for trees is their height. -/
theorem Forest.isWithin_iff {forest : Forest} {ids : List NodeId} {trees : List Node}
    {levels : Nat} (has : forest.HasTrees ids trees) :
    (∀ id ∈ ids, forest.isWithin levels id) ↔ heightIn trees ≤ levels := by
  induction trees using forest_induction generalizing ids levels with
  | nil =>
      cases ids with
      | nil => exact iff_of_true (List.forall_mem_nil _) (Nat.zero_le _)
      | cons => exact has.elim
  | leaf source content rest ofRest =>
      obtain ⟨id, others, rfl, ⟨isKind, -, noChildren⟩, hasRest⟩ := Forest.hasTrees_cons_iff.mp has
      have isWithin : forest.isWithin levels id := by
        cases levels <;> simp [Forest.isWithin, isKind, noChildren, Kind.isContainer]
      rw [List.forall_mem_cons, ofRest hasRest]
      simp [isWithin]
  | block source head settled children rest ofChildren ofRest =>
      obtain ⟨id, others, rfl, ⟨isKind, -, -, hasChildren⟩, hasRest⟩ :=
        Forest.hasTrees_cons_iff.mp has
      rw [List.forall_mem_cons, ofRest hasRest, heightIn_cons, Nat.max_le]
      refine and_congr_left' ?_
      cases levels with
      | zero => simp [Forest.isWithin, isKind, Kind.isContainer]
      | succ levels =>
          rw [Forest.isWithin, List.all_eq_true, ofChildren hasChildren, height_block]
          exact Nat.succ_le_succ_iff.symm

namespace Stage

variable {stage : Stage} {parent : Option NodeId} {row : List Tagged}

/-! ## Reading below a node -/

/-- Reading goes down as far as the trees do. -/
theorem belowTo_eq {levels : Nat} (holds : stage.Holds (entriesIn parent row))
    (within : heightIn (nodesOf row) ≤ levels) :
    (row.map Tagged.id).flatMap (fun id => id :: stage.1.belowTo levels id) = idsOf row := by
  induction row using tagged_induction generalizing parent levels with
  | nil => rfl
  | leaf id source content rest ofRest =>
      have noChildren : stage.1.children id = [] :=
        congrArg Cell.children (holds.isIn _ List.mem_cons_self).cell
      rw [idsOf_leaf, List.map_cons, List.flatMap_cons, Tagged.id,
        Forest.belowTo_of_children noChildren,
        ofRest holds.tail (Nat.le_trans (Nat.le_max_right ..) within)]
      rfl
  | block id source head settled children rest ofChildren ofRest =>
      have holdsBlock : stage.Holds
          ([_] ++ (entriesIn (some id) children ++ entriesIn parent rest)) :=
        holds
      have areChildren : stage.1.children id = children.map Tagged.id :=
        congrArg Cell.children (holds.isIn _ List.mem_cons_self).cell
      obtain ⟨here, later⟩ := Nat.max_le.mp within
      cases levels with
      | zero => exact absurd here (Nat.not_succ_le_zero _)
      | succ levels =>
          rw [idsOf_block, List.map_cons, List.flatMap_cons, Tagged.id, Forest.belowTo, areChildren,
            ofChildren holdsBlock.right.left (Nat.le_of_succ_le_succ here),
            ofRest holdsBlock.right.right later]
          rfl

/-- The nodes of the trees are what the trees say. -/
theorem map_kind_idsOf (holds : stage.Holds (entriesIn parent row)) :
    (idsOf row).map (fun id => (stage.1.cell id).kind) =
      (descendantsIn (nodesOf row)).map Node.kind := by
  induction row using tagged_induction generalizing parent with
  | nil => rfl
  | leaf id source content rest ofRest =>
      have isKind : (stage.1.cell id).kind = .leaf content :=
        congrArg Cell.kind (holds.isIn _ List.mem_cons_self).cell
      rw [idsOf_leaf, List.map_cons, ofRest holds.tail, isKind]
      rfl
  | block id source head settled children rest ofChildren ofRest =>
      have holdsBlock : stage.Holds
          ([_] ++ (entriesIn (some id) children ++ entriesIn parent rest)) :=
        holds
      have isKind : (stage.1.cell id).kind = .block head :=
        congrArg Cell.kind (holds.isIn _ List.mem_cons_self).cell
      rw [idsOf_block, List.map_cons, List.map_append, ofChildren holdsBlock.right.left,
        ofRest holdsBlock.right.right, isKind, ← List.map_append]
      rfl

theorem filterMap_idsOf {β : Type} (holds : stage.Holds (entriesIn parent row))
    {ofId : NodeId → Option β} {ofNode : Node → Option β} (read : Kind → Option β)
    (isOfId : ∀ id, ofId id = read (stage.1.cell id).kind)
    (isOfNode : ∀ node, ofNode node = read node.kind) :
    (idsOf row).filterMap ofId = (descendantsIn (nodesOf row)).filterMap ofNode := by
  have same := congrArg (List.filterMap read) (map_kind_idsOf holds)
  rw [List.filterMap_map, List.filterMap_map] at same
  rw [funext isOfId, funext isOfNode]
  exact same

/-- The declarations below. -/
theorem filterMap_declaration? (holds : stage.Holds (entriesIn parent row)) :
    (idsOf row).filterMap stage.1.declaration? = declarationsIn (nodesOf row) := by
  refine filterMap_idsOf holds Kind.declaration? (fun _ => rfl) fun node => ?_
  cases node with
  | leaf source content => cases content <;> rfl
  | block => rfl

/-- The selector lists below. -/
theorem filterMap_selector? (holds : stage.Holds (entriesIn parent row)) :
    (idsOf row).filterMap stage.1.selector? = selectorsIn (nodesOf row) := by
  refine filterMap_idsOf holds Kind.selector? (fun _ => rfl) fun node => ?_
  cases node with
  | leaf => rfl
  | block source head settled children => cases head <;> rfl

/-- The nodes below that are picked. -/
theorem filter_idsOf (pick : Bool → Kind → Bool) {inKeyframes : Bool} {id : NodeId}
    (holds : stage.Holds (entriesIn (some id) row))
    (isFlag : (stage.1.head? id).any Head.isKeyframes = inKeyframes) :
    (idsOf row).filter (fun node => pick (stage.1.isInKeyframes node) (stage.1.cell node).kind) =
      select pick inKeyframes row := by
  have ofParent : ∀ {node}, stage.1.parent? node = some id →
      stage.1.isInKeyframes node = inKeyframes := by
    intro node isParent
    rw [Forest.isInKeyframes, isParent]
    exact isFlag
  induction row using tagged_induction generalizing id inKeyframes with
  | nil => rfl
  | leaf node source content rest ofRest =>
      have isCell := (holds.isIn _ List.mem_cons_self).cell
      have isKind : (stage.1.cell node).kind = .leaf content := congrArg Cell.kind isCell
      rw [idsOf_leaf, select_leaf, List.filter_cons, isKind, ofParent (congrArg Cell.parent isCell),
        ofRest holds.tail isFlag ofParent]
      split <;> rfl
  | block node source head settled children rest ofChildren ofRest =>
      have holdsBlock :
          stage.Holds ([_] ++ (entriesIn (some node) children ++ entriesIn (some id) rest)) :=
        holds
      have isCell := (holds.isIn _ List.mem_cons_self).cell
      have isKind : (stage.1.cell node).kind = .block head := congrArg Cell.kind isCell
      have isHead : (stage.1.head? node).any Head.isKeyframes = head.isKeyframes := by
        rw [Forest.head?, isKind, Kind.head?_block]
        rfl
      have ofBlock : ∀ {child}, stage.1.parent? child = some node →
          stage.1.isInKeyframes child = head.isKeyframes := by
        intro child isParent
        rw [Forest.isInKeyframes, isParent]
        exact isHead
      rw [idsOf_block, select_block, List.filter_cons, isKind, List.filter_append,
        ofParent (congrArg Cell.parent isCell), ofChildren holdsBlock.right.left isHead ofBlock,
        ofRest holdsBlock.right.right isFlag ofParent]
      split <;> rfl

end Stage

namespace Step

open Stage

/-! ## Loops -/

/-- A loop over nodes below a block.  The work on a picked node gives nodes in its place, the last
of which may be trees that have nothing to do with the rest of the loop; a block stays there first,
with the same picked nodes below it. -/
structure LoopRule (pick : Bool → Kind → Bool) (work : NodeId → Step Unit) (limit : Nat)
    (Becomes : Bool → Option String → List Tagged → List Tagged → Prop) : Prop where
  nil : ∀ inKeyframes file, Becomes inKeyframes file [] []
  keepLeaf : ∀ {inKeyframes file id source content rest rest'},
    pick inKeyframes (.leaf content) = false → Becomes inKeyframes file rest rest' →
      Becomes inKeyframes file (.leaf id source content :: rest) (.leaf id source content :: rest')
  keepBlock : ∀ {inKeyframes file id source head settled children children' rest rest'},
    pick inKeyframes (.block head) = false →
      Becomes head.isKeyframes source children children' → Becomes inKeyframes file rest rest' →
        Becomes inKeyframes file (.block id source head settled children :: rest)
          (.block id source head settled children' :: rest')
  workLeaf : ∀ {inKeyframes id source content}, pick inKeyframes (.leaf content) = true →
    ∀ {stage : Stage} {holder : Entry} {front back}, holder.cell.kind.isContainer →
      holder.cell.cursors = [] → stage.Holds (holder.part front back [.leaf id source content]) →
        Turns (work id) stage (holder.part front back) [.leaf id source content] fun _ turned =>
          ∀ rest rest', Becomes inKeyframes holder.cell.source rest rest' →
            Becomes inKeyframes holder.cell.source (.leaf id source content :: rest)
              (turned ++ rest')
  workBlock : ∀ {inKeyframes id source head settled children},
    pick inKeyframes (.block head) = true → heightIn (nodesOf children) < limit →
      ∀ {stage : Stage} {holder : Entry} {front back}, holder.cell.kind.isContainer →
        holder.cell.cursors = [] →
          stage.Holds (holder.part front back [.block id source head settled children]) →
            Turns (work id) stage (holder.part front back) [.block id source head settled children]
              fun _ turned => ∃ head' settled' children' added,
                turned = .block id source head' settled' children' :: added ∧
                select pick head'.isKeyframes children' = select pick head.isKeyframes children ∧
                heightIn (nodesOf children') ≤ heightIn (nodesOf children) ∧
                ∀ children'' rest rest', Becomes head'.isKeyframes source children' children'' →
                  Becomes inKeyframes holder.cell.source rest rest' →
                    Becomes inKeyframes holder.cell.source
                      (.block id source head settled children :: rest)
                      (.block id source head' settled' children'' :: (added ++ rest'))

variable {stage : Stage} {holder : Entry} {front back : List NodeId} {row : List Tagged}
  {pick : Bool → Kind → Bool} {inKeyframes : Bool} {work : NodeId → Step Unit} {limit : Nat}
  {Becomes : Bool → Option String → List Tagged → List Tagged → Prop}

theorem forM_append (left right : List NodeId) (work : NodeId → Step Unit) :
    (left ++ right).forM work = left.forM work >>= fun _ => right.forM work :=
  List.forM_append

/-- The loop over a row goes over the first tree and over the others, one after the other. -/
theorem Turns.forM_cons {first others : List NodeId} {tree : Tagged} {rest : List Tagged}
    (firstBecomes : List Tagged → Prop) {restBecomes becomes : List Tagged → Prop}
    (holds : stage.Holds (holder.part front back (tree :: rest)))
    (onFirst : stage.Holds (holder.part front (rest.map Tagged.id ++ back) [tree]) →
      Turns (first.forM work) stage (holder.part front (rest.map Tagged.id ++ back)) [tree]
        fun _ turned => firstBecomes turned)
    (onRest : ∀ {stage' : Stage} {front'}, stage'.Holds (holder.part front' back rest) →
      Turns (others.forM work) stage' (holder.part front' back) rest fun _ turned =>
        restBecomes turned)
    (both : ∀ turned turned', firstBecomes turned → restBecomes turned' →
      becomes (turned ++ turned')) :
    Turns ((first ++ others).forM work) stage (holder.part front back) (tree :: rest)
      fun _ turned => becomes turned := by
  rw [forM_append]
  have holdsFirst : stage.Holds (holder.part front (rest.map Tagged.id ++ back) [tree]) :=
    (Entry.part_append holder front back [tree] rest ▸ holds).left
  refine Turns.bind ((onFirst holdsFirst).onLeft rest holds) ?_
  rintro _ stage' _ holds' ⟨turned, rfl, isFirst⟩
  have holdsRest : stage'.Holds (holder.part (front ++ turned.map Tagged.id) back rest) :=
    (holds'.perm (Entry.part_append_perm ..)).left
  refine ((onRest holdsRest).onRight turned holds').mono ?_
  rintro _ _ ⟨turned', rfl, isRest⟩
  exact both turned turned' isFirst isRest

theorem forM_singleton (id : NodeId) (work : NodeId → Step Unit) : [id].forM work = work id := by
  simp [List.forM_eq_forM]

section Tree

variable {id : NodeId} {source : Option String}

/-- The loop at a leaf. -/
theorem LoopRule.onLeaf (rule : LoopRule pick work limit Becomes) {content : Leaf}
    (isContainer : holder.cell.kind.isContainer) (noCursors : holder.cell.cursors = [])
    (holds : stage.Holds (holder.part front back [.leaf id source content])) :
    Turns ((if pick inKeyframes (.leaf content) then [id] else []).forM work) stage
      (holder.part front back) [.leaf id source content] fun _ turned =>
        ∀ rest rest', Becomes inKeyframes holder.cell.source rest rest' →
          Becomes inKeyframes holder.cell.source (.leaf id source content :: rest)
            (turned ++ rest') := by
  cases isPicked : pick inKeyframes (.leaf content) with
  | false => exact Turns.pure holds fun rest rest' => rule.keepLeaf isPicked
  | true =>
      rw [if_pos rfl, forM_singleton]
      exact rule.workLeaf isPicked isContainer noCursors holds

/-- The loop at a block and below it, given what it does below blocks like this one. -/
theorem LoopRule.onBlock (rule : LoopRule pick work limit Becomes) {head : Head} {settled : Bool}
    {children : List Tagged} (few : heightIn (nodesOf children) < limit)
    (ofChildren : ∀ {stage : Stage} {holder : Entry} {inKeyframes children'},
      heightIn (nodesOf children') ≤ heightIn (nodesOf children) →
        holder.cell.kind.isContainer → holder.cell.cursors = [] →
          stage.Holds (holder.part [] [] children') →
            Turns ((select pick inKeyframes children').forM work) stage (holder.part [] [])
              children' fun _ turned => Becomes inKeyframes holder.cell.source children' turned)
    (isContainer : holder.cell.kind.isContainer) (noCursors : holder.cell.cursors = [])
    (holds : stage.Holds (holder.part front back [.block id source head settled children])) :
    Turns (((if pick inKeyframes (.block head) then [id] else []) ++
          select pick head.isKeyframes children).forM work) stage
      (holder.part front back) [.block id source head settled children] fun _ turned =>
        ∀ rest rest', Becomes inKeyframes holder.cell.source rest rest' →
          Becomes inKeyframes holder.cell.source (.block id source head settled children :: rest)
            (turned ++ rest') := by
  have goDown : ∀ {stage' : Stage} {head' settled' children'} {added : List Tagged},
      heightIn (nodesOf children') ≤ heightIn (nodesOf children) →
        stage'.Holds
          (holder.part front back (.block id source head' settled' children' :: added)) →
          Turns ((select pick head'.isKeyframes children').forM work) stage'
            (holder.part front back) (.block id source head' settled' children' :: added)
              fun _ turned =>
              ∃ children'', turned = .block id source head' settled' children'' :: added ∧
                Becomes head'.isKeyframes source children' children'' :=
    fun within holds' => Turns.inFirst holds' (ofChildren within rfl rfl)
  cases isPicked : pick inKeyframes (.block head) with
  | false =>
      rw [if_neg (by simp), List.nil_append]
      refine (goDown (Nat.le_refl _) holds).mono ?_
      rintro _ _ ⟨children', rfl, isBelow⟩ rest rest' isRest
      exact rule.keepBlock isPicked isBelow isRest
  | true =>
      rw [if_pos rfl, forM_append, forM_singleton]
      refine Turns.bind (rule.workBlock isPicked few isContainer noCursors holds) ?_
      rintro _ stage' _ holds' ⟨head', settled', children', added, rfl, samePicked, within, becomes⟩
      rw [← samePicked]
      refine (goDown within holds').mono ?_
      rintro _ _ ⟨children'', rfl, isBelow⟩ rest rest' isRest
      exact becomes children'' rest rest' isBelow isRest

end Tree

/-- A loop does what a recursion does. -/
theorem LoopRule.turns (rule : LoopRule pick work limit Becomes)
    (within : heightIn (nodesOf row) ≤ limit)
    (isContainer : holder.cell.kind.isContainer) (noCursors : holder.cell.cursors = [])
    (holds : stage.Holds (holder.part front back row)) :
    Turns ((select pick inKeyframes row).forM work) stage (holder.part front back) row
      fun _ turned => Becomes inKeyframes holder.cell.source row turned := by
  -- The children of a block may have changed when the loop gets there, but not in height.
  generalize isHeight : heightIn (nodesOf row) = levels
  induction levels using Nat.strong_induction_on
    generalizing row holder stage front back inKeyframes with
  | _ levels ofLower =>
    have below : ∀ {row' : List Tagged}, heightIn (nodesOf row') ≤ levels →
        ∀ {stage : Stage} {front : List NodeId}, stage.Holds (holder.part front back row') →
          Turns ((select pick inKeyframes row').forM work) stage (holder.part front back) row'
            fun _ turned => Becomes inKeyframes holder.cell.source row' turned := by
      intro row' lower
      induction row' with
      | nil => exact fun holds => Turns.pure holds (rule.nil ..)
      | cons tree rest ofRest =>
          intro stage front holds
          obtain ⟨here, later⟩ := Nat.max_le.mp lower
          refine Turns.forM_cons (fun turned => ∀ rest rest',
              Becomes inKeyframes holder.cell.source rest rest' →
                Becomes inKeyframes holder.cell.source (tree :: rest) (turned ++ rest')) holds
            (fun holdsFirst => ?_) (fun holdsRest => ofRest later holdsRest)
            fun turned turned' isFirst isRest => isFirst rest turned' isRest
          cases tree with
          | leaf id source content => exact rule.onLeaf isContainer noCursors holdsFirst
          | block id source head settled children =>
              have isLower : heightIn (nodesOf children) < levels := here
              have few : heightIn (nodesOf children) < limit :=
                Nat.lt_of_lt_of_le isLower (isHeight ▸ within)
              refine rule.onBlock few (fun atMost isBlock isStill holdsBelow => ?_) isContainer
                noCursors holdsFirst
              exact ofLower _ (Nat.lt_of_le_of_lt atMost isLower)
                (Nat.le_of_lt (Nat.lt_of_le_of_lt atMost few)) isBlock isStill holdsBelow rfl
    exact below (Nat.le_of_eq isHeight) holds

/-- A loop over what is below a block. -/
theorem LoopRule.turnsBelow (rule : LoopRule pick work limit Becomes) {parent : Option NodeId}
    {id : NodeId} {source : Option String} {head : Head} {settled : Bool} {children : List Tagged}
    (within : heightIn (nodesOf children) ≤ limit)
    (holds : stage.Holds (Tagged.entries parent (.block id source head settled children))) :
    Turns ((select pick head.isKeyframes children).forM work) stage (Tagged.entries parent)
      (.block id source head settled children) fun _ turned =>
        ∃ children', turned = .block id source head settled children' ∧
          Becomes head.isKeyframes source children children' :=
  (rule.turns within rfl rfl (entries_block .. ▸ holds)).below

end Step

end ContainerPreview
