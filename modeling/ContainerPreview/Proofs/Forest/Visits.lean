import ContainerPreview.Proofs.Forest.Below
import ContainerPreview.Proofs.Forest.Live

/-!
# Walks that leave the forest alone

A visitor that changes nothing is called on the nodes below a container in document order, up
to and including the first one at which it says to stop.  A visitor that is only asked about
some kinds of node is called on these in the same way, and the walk goes on below the others.

On its way a walk opens, moves and closes cursors of its own, each newer than the cursors that
are there, so walks inside walks do not get in the way of each other.
-/

namespace ContainerPreview

namespace Forest

variable {σ : Type} {base forest forest' forest'' : Forest} {container id : NodeId}
  {bound bound' key : Nat} {ids ids' behind ahead passed : List NodeId} {ended : WalkEnd}

/-! ## Replies -/

/-- The state of a visitor together with the replies that it has given so far. -/
abbrev Noted (σ : Type) := Visited (σ × List (NodeId × Reply))

/-- The visitor, with every reply noted. -/
def Visitor.noting (visitor : Visitor σ) : Visitor (σ × List (NodeId × Reply)) := fun id state =>
  let (reply, forest, own) := visitor id (state.1, state.2.1)
  (reply, forest, own, state.2.2 ++ [(id, reply)])

/-- A visitor has been called on the nodes of a list in their order, up to and including the
first one at which it said to stop; the walk has been stopped if there is one, and has come to
its end otherwise. -/
inductive Coverage : List NodeId → WalkEnd → List (NodeId × Reply) → Prop
  | finished (ids : List NodeId) : Coverage ids .finished (ids.map fun id => (id, .goOn))
  | stopped (before : List NodeId) (id : NodeId) (after : List NodeId) :
      Coverage (before ++ id :: after) .stopped
        ((before.map fun id => (id, .goOn)) ++ [(id, .stop)])

namespace Coverage

variable {noted noted' : List (NodeId × Reply)}

/-- Going on with the nodes of another list. -/
theorem append (first : Coverage ids .finished noted) (second : Coverage ids' ended noted') :
    Coverage (ids ++ ids') ended (noted ++ noted') := by
  cases first
  cases second with
  | finished =>
      rw [← List.map_append]
      exact .finished (ids ++ ids')
  | stopped before id after =>
      rw [← List.append_assoc, ← List.append_assoc, ← List.map_append]
      exact .stopped (ids ++ before) id after

/-- A walk that is stopped does not come to further nodes. -/
theorem append_right (covers : Coverage ids ended noted) (stopped : ended = .stopped)
    (more : List NodeId) : Coverage (ids ++ more) ended noted := by
  cases covers with
  | finished => cases stopped
  | stopped before id after =>
      rw [List.append_assoc]
      exact .stopped before id (after ++ more)

theorem ne_exhausted (covers : Coverage ids ended noted) : ended ≠ .exhausted := by
  cases covers <;> exact nofun

end Coverage

/-! ## What a walk leaves as it was -/

/-- Nothing has changed but cursors, and none of those older than the bound. -/
structure Kept (bound : Nat) (forest forest' : Forest) : Prop where
  size : forest'.size = forest.size
  nextKey : forest.nextKey ≤ forest'.nextKey
  children : ∀ id, forest'.children id = forest.children id
  kind : ∀ id, (forest'.cell id).kind = (forest.cell id).kind
  cursor : ∀ id, ∀ key < bound, forest'.cursor? id key = forest.cursor? id key

namespace Kept

theorem refl (bound : Nat) (forest : Forest) : Kept bound forest forest :=
  ⟨rfl, Nat.le_refl _, fun _ => rfl, fun _ => rfl, fun _ _ _ => rfl⟩

theorem trans (first : Kept bound forest forest') (second : Kept bound forest' forest'') :
    Kept bound forest forest'' where
  size := second.size.trans first.size
  nextKey := Nat.le_trans first.nextKey second.nextKey
  children id := (second.children id).trans (first.children id)
  kind id := (second.kind id).trans (first.kind id)
  cursor id key older := (second.cursor id key older).trans (first.cursor id key older)

theorem mono (kept : Kept bound forest forest') (atMost : bound' ≤ bound) :
    Kept bound' forest forest' :=
  { kept with cursor := fun id key older => kept.cursor id key (Nat.lt_of_lt_of_le older atMost) }

/-- A change of newer cursors. -/
theorem update (change : Cell → Cell) (children : ∀ cell, (change cell).children = cell.children)
    (kind : ∀ cell, (change cell).kind = cell.kind)
    (cursors : ∀ key < bound, ∀ cell : Cell,
      (change cell).cursors.find? (·.key == key) = cell.cursors.find? (·.key == key))
    (forest : Forest) (id : NodeId) : Kept bound forest (forest.update id change) where
  size := size_update ..
  nextKey := Nat.le_refl _
  children := children_update_of_same forest change children id
  kind := field_update Cell.kind kind forest id
  cursor other key older := by
    simp only [cursor?, cell_update]
    split
    · rw [cursors key older]
    · rfl

end Kept

theorem Awaits.of_kept (awaits : Awaits forest container key behind ahead)
    (kept : Kept bound forest forest') (older : key < bound) :
    Awaits forest' container key behind ahead where
  children := (kept.children container).trans awaits.children
  cursor := (kept.cursor container key older).trans awaits.cursor
  inUse := kept.size ▸ awaits.inUse
  older := Nat.lt_of_lt_of_le awaits.older kept.nextKey

/-- From one state on, the visitor has been called on the nodes of a list, and nothing has
changed but newer cursors. -/
structure Records (bound : Nat) (ids : List NodeId) (state : Noted σ)
    (result : WalkEnd × Noted σ) : Prop where
  kept : Kept bound state.1 result.2.1
  covers : ∃ noted, result.2.2.2 = state.2.2 ++ noted ∧ Coverage ids result.1 noted

namespace Records

variable {state state' : Noted σ} {result : WalkEnd × Noted σ}

/-- Going on with the nodes of another list. -/
theorem append (first : Records bound ids state (.finished, state'))
    (second : Records bound ids' state' result) : Records bound (ids ++ ids') state result := by
  obtain ⟨noted, isNoted, covers⟩ := first.covers
  obtain ⟨noted', isNoted', covers'⟩ := second.covers
  refine ⟨first.kept.trans second.kept, noted ++ noted', ?_, covers.append covers'⟩
  rw [isNoted', isNoted, List.append_assoc]

/-- A walk that is stopped does not come to further nodes. -/
theorem append_right (records : Records bound ids state result) (stopped : result.1 = .stopped)
    (more : List NodeId) : Records bound (ids ++ more) state result := by
  obtain ⟨noted, isNoted, covers⟩ := records.covers
  exact ⟨records.kept, noted, isNoted, covers.append_right stopped more⟩

theorem ne_exhausted (records : Records bound ids state result) : result.1 ≠ .exhausted := by
  obtain ⟨_, _, covers⟩ := records.covers
  exact covers.ne_exhausted

theorem mono (records : Records bound ids state result) (atMost : bound' ≤ bound) :
    Records bound' ids state result :=
  ⟨records.kept.mono atMost, records.covers⟩

/-- A walk that covers nothing. -/
theorem nil (bound : Nat) (state : Noted σ) : Records bound [] state (.finished, state) :=
  ⟨.refl bound state.1, [], (List.append_nil _).symm, .finished []⟩

/-- A change of newer cursors before the walk. -/
theorem after_kept (kept : Kept bound state.1 forest)
    (records : Records bound ids (forest, state.2) result) : Records bound ids state result :=
  ⟨kept.trans records.kept, records.covers⟩

/-- A change of newer cursors after the walk. -/
theorem before_kept (records : Records bound ids state result)
    (kept : Kept bound result.2.1 forest) :
    Records bound ids state (result.1, forest, result.2.2) :=
  ⟨records.kept.trans kept, records.covers⟩

end Records

/-! ## One container -/

/-- Going over the children from a cursor on, each visit covering a list of its own. -/
theorem records_eachFrom {visit : NodeId → Noted σ → WalkEnd × Noted σ}
    {covered : NodeId → List NodeId}
    (visits : ∀ child ∈ ahead, ∀ state, Kept 0 base state.1 →
      Records state.1.nextKey (covered child) state (visit child state))
    (steps : Nat) (enough : ahead.length < steps) (state : Noted σ) (kept : Kept 0 base state.1)
    (awaits : Awaits state.1 container key behind ahead) :
    Records key (ahead.flatMap covered) state (eachFrom visit container key steps state) := by
  induction ahead generalizing steps state behind with
  | nil =>
      cases steps with
      | zero => simp at enough
      | succ steps =>
          rw [eachFrom, cursorIndex_eq awaits.cursor, awaits.children, List.append_nil,
            List.getElem?_eq_none (Nat.le_refl _)]
          exact .nil key state
  | cons child rest inductionHypothesis =>
      cases steps with
      | zero => simp at enough
      | succ steps =>
          have isHere : (behind ++ child :: rest)[behind.length]? = some child := by simp
          rw [eachFrom, cursorIndex_eq awaits.cursor, awaits.children, isHere, List.flatMap_cons]
          have visited := visits child List.mem_cons_self state kept
          have visited' := visited.mono (Nat.le_of_lt awaits.older)
          dsimp only
          generalize visit child state = result at visited visited'
          rcases result with ⟨ended, forest', own⟩
          cases ended with
          | finished =>
              have advances : Kept key forest'
                  (forest'.update container (Cell.advanceCursor key)) :=
                .update (Cell.advanceCursor key) (fun _ => rfl) (fun _ => rfl)
                  (fun other older cell => find?_advanceCursor (Nat.ne_of_gt older) cell) forest' _
              have kept' := (kept.trans (visited.kept.mono (Nat.zero_le _))).trans
                (advances.mono (Nat.zero_le _))
              have recordsRest := inductionHypothesis
                (fun child later => visits child (List.mem_cons_of_mem _ later)) steps
                (by simpa using enough) (_, own) kept'
                (awaits.of_kept visited.kept awaits.older).visit.advance
              exact visited'.append (.after_kept advances recordsRest)
          | stopped => exact visited'.append_right rfl (rest.flatMap covered)
          | exhausted => exact absurd rfl visited.ne_exhausted

/-- Going over all children with a cursor of its own. -/
theorem records_eachWith {visit : NodeId → Noted σ → WalkEnd × Noted σ}
    {covered : NodeId → List NodeId}
    (visits : ∀ child ∈ base.children container, ∀ state, Kept 0 base state.1 →
      Records state.1.nextKey (covered child) state (visit child state))
    (steps : Nat) (enough : (base.children container).length < steps)
    (inUse : container < base.size) (state : Noted σ) (kept : Kept 0 base state.1) :
    Records state.1.nextKey ((base.children container).flatMap covered) state
      (eachWith visit steps container state) := by
  obtain ⟨forest, own⟩ := state
  have newKey : Kept forest.nextKey forest { forest with nextKey := forest.nextKey + 1 } :=
    { Kept.refl forest.nextKey forest with nextKey := Nat.le_succ _ }
  have opens := newKey.trans (.update (Cell.openCursor forest.nextKey) (fun _ => rfl)
    (fun _ => rfl) (fun key older cell => find?_openCursor (Nat.ne_of_gt older) cell)
    { forest with nextKey := forest.nextKey + 1 } container)
  have inUse' : container < forest.size := kept.size ▸ inUse
  have awaits := Awaits.start inUse'
  rw [kept.children container] at awaits
  have walked : Records forest.nextKey _ (forest, own) _ := .after_kept opens
    (records_eachFrom visits steps enough (_, own) (kept.trans (opens.mono (Nat.zero_le _))) awaits)
  exact walked.before_kept (.update (Cell.closeCursor forest.nextKey) (fun _ => rfl)
    (fun _ => rfl) (fun key older cell => find?_closeCursor (Nat.ne_of_gt older) cell) _ container)

/-! ## All nodes below -/

/-- The visitor changes nothing, but that it may open, move and close cursors of its own. -/
def Visitor.Spares (visitor : Visitor σ) : Prop :=
  ∀ id state, Kept state.1.nextKey state.1 (visitor id state).2.1

/-- The nodes below a container that are of an admitted kind, in document order. -/
def belowOf (forest : Forest) (admits : Kind → Bool) (container : NodeId) : List NodeId :=
  (forest.below container).filter fun id => admits (forest.cell id).kind

theorem belowOf_eq (linked : WellLinked forest) (admits : Kind → Bool) (container : NodeId) :
    forest.belowOf admits container = (forest.children container).flatMap fun child =>
      [child].filter (fun id => admits (forest.cell id).kind) ++ forest.belowOf admits child := by
  rw [belowOf, below_eq linked, List.filter_flatMap]
  refine List.flatMap_congr fun child _ => ?_
  rw [belowOf, ← List.filter_append, List.singleton_append]

theorem belowOf_of_leaf (linked : WellLinked forest) {id : NodeId}
    (isLeaf : (forest.cell id).kind.isContainer = false) (admits : Kind → Bool) :
    forest.belowOf admits id = [] := by
  rw [belowOf_eq linked, linked.children_eq_nil_of_leaf isLeaf, List.flatMap_nil]

section Walks

variable {visitor : Visitor σ} (spares : visitor.Spares) (admits : Kind → Bool)

include spares

/-- One visit, to a node that may be of an admitted kind. -/
theorem records_visitOnce (id : NodeId) (state : Noted σ) (kept : Kept 0 base state.1) :
    Records state.1.nextKey ([id].filter fun id => admits (base.cell id).kind) state
      (visitOnce (visitor.noting.only admits) id state) := by
  have sameKind := kept.kind id
  have spared := spares id (state.1, state.2.1)
  rw [visitOnce, Visitor.only, sameKind, List.filter_singleton]
  cases admits (base.cell id).kind with
  | false => exact .nil state.1.nextKey state
  | true =>
      simp only [if_true, Visitor.noting, cond_true]
      generalize visitor id (state.1, state.2.1) = answer at spared
      rcases answer with ⟨reply, forest, own⟩
      cases reply with
      | goOn => exact ⟨spared, [(id, .goOn)], rfl, .finished [id]⟩
      | stop => exact ⟨spared, [(id, .stop)], rfl, .stopped [] id []⟩

theorem records_walk (linked : WellLinked base) (steps : Nat) (way : IsWayTo base passed container)
    (inUse : container < base.size) (enough : base.size < steps + passed.length)
    (state : Noted σ) (kept : Kept 0 base state.1) :
    Records state.1.nextKey (base.belowOf admits container) state
      (walk (visitor.noting.only admits) steps container state) := by
  induction steps generalizing container passed state with
  | zero =>
      have few := linked.length_children_add_way_lt way inUse
      omega
  | succ steps inductionHypothesis =>
      have few := linked.length_children_add_way_lt way inUse
      rw [belowOf_eq linked, walk]
      refine records_eachWith (fun child member state kept => ?_) (steps + 1) (by omega) inUse
        state kept
      have visited := records_visitOnce spares admits child state kept
      generalize visitOnce (visitor.noting.only admits) child state = result at visited
      rcases result with ⟨ended, state'⟩
      cases ended with
      | finished =>
          have kept' := kept.trans (visited.kept.mono (Nat.zero_le _))
          refine visited.append ?_
          cases isContainer : (base.cell child).kind.isContainer with
          | false =>
              rw [belowOf_of_leaf linked isContainer]
              simp only [kept'.kind child, isContainer]
              exact .nil state.1.nextKey state'
          | true =>
              have longer : (container :: passed).length = passed.length + 1 := List.length_cons
              have walked := inductionHypothesis (linked.way_down way member)
                (linked.sound.inUse container child member) (by omega) state' kept'
              simp only [kept'.kind child, isContainer, if_true]
              exact walked.mono visited.kept.nextKey
      | stopped => exact visited.append_right rfl (base.belowOf admits child)
      | exhausted => exact absurd rfl visited.ne_exhausted

end Walks

/-! ## Noting replies does not change a walk -/

/-- What a walk has come to, without the replies. -/
def unnoted (result : WalkEnd × Noted σ) : WalkEnd × Visited σ :=
  (result.1, result.2.1, result.2.2.1)

section Unnoted

variable {visit : NodeId → Visited σ → WalkEnd × Visited σ}
  {visit' : NodeId → Noted σ → WalkEnd × Noted σ}
  (same : ∀ id state, unnoted (visit' id state) = visit id (state.1, state.2.1))

include same

theorem unnoted_eachFrom (container : NodeId) (key steps : Nat) (state : Noted σ) :
    unnoted (eachFrom visit' container key steps state) =
      eachFrom visit container key steps (state.1, state.2.1) := by
  induction steps generalizing state with
  | zero => rfl
  | succ steps inductionHypothesis =>
      rw [eachFrom, eachFrom]
      cases (state.1.children container)[state.1.cursorIndex container key]? with
      | none => rfl
      | some child =>
          dsimp only
          rw [← same child state]
          rcases visit' child state with ⟨_ | _ | _, forest, own⟩
          · exact inductionHypothesis (forest.update container (Cell.advanceCursor key), own)
          · rfl
          · rfl

theorem unnoted_eachWith (steps : Nat) (container : NodeId) (state : Noted σ) :
    unnoted (eachWith visit' steps container state) =
      eachWith visit steps container (state.1, state.2.1) := by
  have sameEnd := unnoted_eachFrom same container state.1.nextKey steps
    ({ state.1 with nextKey := state.1.nextKey + 1 }.update container
      (Cell.openCursor state.1.nextKey), state.2)
  simp only [eachWith]
  rw [← sameEnd]
  rfl

end Unnoted

theorem unnoted_visitOnce (visitor : Visitor σ) (admits : Kind → Bool) (id : NodeId)
    (state : Noted σ) :
    unnoted (visitOnce (visitor.noting.only admits) id state) =
      visitOnce (visitor.only admits) id (state.1, state.2.1) := by
  rw [visitOnce, visitOnce, Visitor.only, Visitor.only]
  cases admits (state.1.cell id).kind <;> rfl

theorem unnoted_walk (visitor : Visitor σ) (admits : Kind → Bool) (steps : Nat)
    (container : NodeId) (state : Noted σ) :
    unnoted (walk (visitor.noting.only admits) steps container state) =
      walk (visitor.only admits) steps container (state.1, state.2.1) := by
  induction steps generalizing container state with
  | zero => rfl
  | succ steps inductionHypothesis =>
      rw [walk, walk]
      refine unnoted_eachWith (fun id state => ?_) (steps + 1) container state
      rw [← unnoted_visitOnce visitor admits id state]
      rcases visitOnce (visitor.noting.only admits) id state with ⟨_ | _ | _, state'⟩
      · simp only [unnoted]
        split
        · exact inductionHypothesis id state'
        · rfl
      · rfl
      · rfl

/-! ## The walk over a container -/

/-- A walk that notes the replies of its visitor has called it on the nodes of a list in their
order, up to and including the first one at which it said to stop, and has been stopped if
and only if there is such a node.  The walk that notes nothing comes to the same. -/
structure GoesOver (ids : List NodeId) (result : WalkEnd × Visited σ) (noted : WalkEnd × Noted σ) :
    Prop where
  unnoted : result = unnoted noted
  covers : Coverage ids noted.1 noted.2.2.2
  stopped_iff : noted.1 = .stopped ↔ ∃ id ∈ ids, (id, .stop) ∈ noted.2.2.2

theorem Coverage.stopped_iff {noted : List (NodeId × Reply)} (covers : Coverage ids ended noted) :
    ended = .stopped ↔ ∃ id ∈ ids, (id, .stop) ∈ noted := by
  cases covers with
  | finished => simp
  | stopped before id after => simp

theorem goesOver_walk (linked : WellLinked forest) (inUse : container < forest.size)
    {steps : Nat} (enough : forest.size < steps) {visitor : Visitor σ} (spares : visitor.Spares)
    (admits : Kind → Bool) (own : σ) :
    GoesOver (forest.belowOf admits container)
      (walk (visitor.only admits) steps container (forest, own))
      (walk (visitor.noting.only admits) steps container (forest, own, [])) := by
  obtain ⟨noted, isNoted, covers⟩ := (records_walk spares admits linked steps
    (.nil forest container) inUse enough (forest, own, []) (.refl 0 forest)).covers
  rw [List.nil_append] at isNoted
  rw [← isNoted] at covers
  exact ⟨(unnoted_walk visitor admits steps container (forest, own, [])).symm, covers,
    covers.stopped_iff⟩

/-- Walks over the nodes below a container of a linked forest, with a visitor that changes
nothing and more steps than there are nodes.  The nodes below are the proper descendants,
each once, and each before those below it.  A walk over all of them, over the declarations
among them (of one property if there is one), over the rules or over the at-rules (of one
name if there is one) goes over these nodes in this order until it is stopped. -/
theorem walk_goesOver (linked : WellLinked forest) (inUse : container < forest.size)
    (steps : Nat) (enough : forest.size < steps) (visitor : Visitor σ) (spares : visitor.Spares)
    (own : σ) :
    (∀ id, id ∈ forest.below container ↔ forest.IsAncestor container id) ∧
      (forest.below container).Nodup ∧
      (∀ id, forest.below id = (forest.children id).flatMap fun child =>
        child :: forest.below child) ∧
      GoesOver (forest.below container) (walk visitor steps container (forest, own))
        (walk visitor.noting steps container (forest, own, [])) ∧
      (∀ property, GoesOver (forest.belowOf (isDeclaration property) container)
        (walk (visitor.only (isDeclaration property)) steps container (forest, own))
        (walk (visitor.noting.only (isDeclaration property)) steps container (forest, own, []))) ∧
      GoesOver (forest.belowOf isRule container)
        (walk (visitor.only isRule) steps container (forest, own))
        (walk (visitor.noting.only isRule) steps container (forest, own, [])) ∧
      ∀ name, GoesOver (forest.belowOf (isAtRule name) container)
        (walk (visitor.only (isAtRule name)) steps container (forest, own))
        (walk (visitor.noting.only (isAtRule name)) steps container (forest, own, [])) := by
  have all := goesOver_walk linked inUse enough spares (fun _ => true) own
  have everyNode : forest.belowOf (fun _ => true) container = forest.below container :=
    List.filter_eq_self.mpr fun _ _ => rfl
  rw [everyNode] at all
  exact ⟨fun id => mem_below_iff linked, nodup_below linked container, below_eq linked, all,
    fun property => goesOver_walk linked inUse enough spares (isDeclaration property) own,
    goesOver_walk linked inUse enough spares isRule own,
    fun name => goesOver_walk linked inUse enough spares (isAtRule name) own⟩

/-- Counts nodes, up to a given one. -/
def countTo (last : NodeId) : Visitor Nat := fun id state =>
  (if id = last then .stop else .goOn, state.1, state.2 + 1)

theorem spares_countTo (last : NodeId) : (countTo last).Spares :=
  fun _ state => .refl _ state.1

theorem walk_goesOver_copiedForest :
    WellLinked copiedForest ∧ 0 < copiedForest.size ∧ copiedForest.size < 6 ∧
      (countTo 1).Spares ∧
      (∀ id, id ∈ copiedForest.below 0 ↔ copiedForest.IsAncestor 0 id) ∧
      (copiedForest.below 0).Nodup ∧
      (∀ id, copiedForest.below id = (copiedForest.children id).flatMap fun child =>
        child :: copiedForest.below child) ∧
      GoesOver (copiedForest.below 0) (walk (countTo 1) 6 0 (copiedForest, 0))
        (walk (countTo 1).noting 6 0 (copiedForest, 0, [])) ∧
      (∀ property, GoesOver (copiedForest.belowOf (isDeclaration property) 0)
        (walk ((countTo 1).only (isDeclaration property)) 6 0 (copiedForest, 0))
        (walk ((countTo 1).noting.only (isDeclaration property)) 6 0 (copiedForest, 0, []))) ∧
      GoesOver (copiedForest.belowOf isRule 0)
        (walk ((countTo 1).only isRule) 6 0 (copiedForest, 0))
        (walk ((countTo 1).noting.only isRule) 6 0 (copiedForest, 0, [])) ∧
      ∀ name, GoesOver (copiedForest.belowOf (isAtRule name) 0)
        (walk ((countTo 1).only (isAtRule name)) 6 0 (copiedForest, 0))
        (walk ((countTo 1).noting.only (isAtRule name)) 6 0 (copiedForest, 0, [])) := by
  have inUse : 0 < copiedForest.size := by decide
  have enough : copiedForest.size < 6 := by decide
  exact ⟨wellLinked_copiedForest, inUse, enough, spares_countTo 1,
    walk_goesOver wellLinked_copiedForest inUse 6 enough (countTo 1) (spares_countTo 1) 0⟩

/-- The walk over all nodes is stopped at the first declaration, that over the rules is not. -/
example : copiedForest.below 0 = [4, 2, 1, 3] ∧
    (walk (countTo 1).noting 6 0 (copiedForest, 0, [])).2.2.2 =
      [(4, .goOn), (2, .goOn), (1, .stop)] ∧
    (walk ((countTo 1).noting.only isRule) 6 0 (copiedForest, 0, [])).2.2.2 =
      [(4, .goOn), (2, .goOn)] := by decide

end Forest

end ContainerPreview
