import ContainerPreview.Proofs.Toggle.Height
import ContainerPreview.Proofs.Toggle.Processing
import ContainerPreview.Proofs.Worker.Edits
import ContainerPreview.Proofs.Worker.Select

/-!
# Processing declarations in place

A pass that makes the declarations of a rule fit for the container goes over them once for each of
its stages.  No stage fails, and together they leave the children of a container variant.  They put
in declarations only, so the rules below are the same ones afterwards.
-/

namespace ContainerPreview

open Tagged

/-- The rules that do not stand directly in keyframes. -/
def isFree (inKeyframes : Bool) (kind : Kind) : Bool :=
  Forest.isRule kind && !inKeyframes

namespace Tagged

/-- Rows with the same rules in them, to the same height. -/
structure SameRules (row row' : List Tagged) : Prop where
  height : heightIn (nodesOf row') = heightIn (nodesOf row)
  rules : ∀ inKeyframes, select isFree inKeyframes row' = select isFree inKeyframes row

theorem SameRules.refl (row : List Tagged) : SameRules row row :=
  ⟨rfl, fun _ => rfl⟩

theorem SameRules.trans {row row' row'' : List Tagged} (first : SameRules row row')
    (second : SameRules row' row'') : SameRules row row'' :=
  ⟨second.height.trans first.height,
    fun inKeyframes => (second.rules inKeyframes).trans (first.rules inKeyframes)⟩

variable {row : List Tagged}

theorem height_of_leaves (leaves : ∀ node ∈ nodesOf row, node.isLeaf) :
    heightIn (nodesOf row) = 0 := by
  induction row with
  | nil => rfl
  | cons tree trees inductionHypothesis =>
      obtain ⟨here, later⟩ := List.forall_mem_cons.mp leaves
      cases tree with
      | leaf => simpa [heightIn, Tagged.node, Node.height] using inductionHypothesis later
      | block => cases here

theorem select_isFree_of_leaves (leaves : ∀ node ∈ nodesOf row, node.isLeaf) (inKeyframes : Bool) :
    select isFree inKeyframes row = [] := by
  induction row with
  | nil => rfl
  | cons tree trees inductionHypothesis =>
      obtain ⟨here, later⟩ := List.forall_mem_cons.mp leaves
      cases tree with
      | leaf => simpa [isFree, Forest.isRule] using inductionHypothesis later
      | block => cases here

end Tagged

namespace Stage

variable {stage : Stage} {parent : Option NodeId} {id : NodeId} {source : Option String}
  {head : Head} {settled : Bool} {children : List Tagged} {worker : Worker}

theorem Holds.below
    (holds : stage.Holds (Tagged.entries parent (.block id source head settled children))) :
    stage.Holds (entriesIn (some id) children) :=
  holds.tail

theorem head?_block
    (holds : stage.Holds (Tagged.entries parent (.block id source head settled children))) :
    stage.1.head? id = some head := by
  have isKind : (stage.1.cell id).kind = .block head :=
    congrArg Cell.kind (holds.isIn _ List.mem_cons_self).cell
  rw [Forest.head?, isKind, Kind.head?_block]

theorem belowTo_block {levels : Nat}
    (holds : stage.Holds (Tagged.entries parent (.block id source head settled children)))
    (within : heightIn (nodesOf children) < levels) :
    stage.1.belowTo levels id = idsOf children := by
  have holdsRow : stage.Holds (entriesIn parent [.block id source head settled children]) :=
    (entriesIn_singleton ..).symm ▸ holds
  have withinRow : heightIn (nodesOf [.block id source head settled children]) ≤ levels := by
    simpa [Tagged.node] using Nat.succ_le_of_lt within
  have isBelow := belowTo_eq holdsRow withinRow
  simpa [Tagged.id] using isBelow

/-- What a look below a block finds. -/
theorem filter_belowTo {levels : Nat} (pick : Bool → Kind → Bool)
    (holds : stage.Holds (Tagged.entries parent (.block id source head settled children)))
    (within : heightIn (nodesOf children) < levels) :
    (stage.1.belowTo levels id).filter
        (fun node => pick (stage.1.isInKeyframes node) (stage.1.cell node).kind) =
      select pick head.isKeyframes children := by
  rw [belowTo_block holds within]
  exact filter_idsOf pick holds.below (by rw [head?_block holds]; rfl)

theorem declarations_eq
    (holds : stage.Holds (Tagged.entries parent (.block id source head settled children)))
    (within : heightIn (nodesOf children) < worker.levels) :
    worker.declarations stage.1 id = declarationsIn (nodesOf children) := by
  rw [Worker.declarations, belowTo_block holds within, filterMap_declaration? holds.below]

theorem hasFixed_eq
    (holds : stage.Holds (Tagged.entries parent (.block id source head settled children)))
    (within : heightIn (nodesOf children) < worker.levels) :
    worker.hasFixed stage.1 id = hasFixedPosition (nodesOf children) := by
  rw [Worker.hasFixed, declarations_eq holds within, hasFixedPosition]

theorem declaration?_leaf {declaration : Declaration}
    (holds : stage.Holds (Tagged.entries parent (.leaf id source (.declaration declaration)))) :
    stage.1.declaration? id = some declaration := by
  have isKind : (stage.1.cell id).kind = .leaf (.declaration declaration) :=
    congrArg Cell.kind (holds.isIn _ List.mem_cons_self).cell
  rw [Forest.declaration?, isKind]
  rfl

end Stage

namespace Step

open Stage

variable {stage : Stage} {parent : Option NodeId} {holder : Entry} {front back : List NodeId}
  {id : NodeId} {source : Option String} {head : Head} {settled : Bool} {children : List Tagged}
  {declaration : Declaration} {worker : Worker}

/-! ## Stages -/

/-- The work of a stage puts leaves in the place of a declaration that it is for. -/
def Rewrites (rewrite : Rewrite) (work : NodeId → Step Unit) (property : Option String) : Prop :=
  ∀ {stage : Stage} {holder : Entry} {front back id source} {declaration : Declaration},
    Forest.isDeclaration property (.leaf (.declaration declaration)) →
      holder.cell.kind.isContainer → holder.cell.cursors = [] →
        stage.Holds (holder.part front back [.leaf id source (.declaration declaration)]) →
          Turns (work id) stage (holder.part front back)
            [.leaf id source (.declaration declaration)] fun _ turned =>
              nodesOf turned = (rewrite holder.cell.source source declaration).value.nodes ∧
                ∀ node ∈ nodesOf turned, node.isLeaf

/-- A stage leaves the declarations alone that it is not for. -/
def LeavesAlone (rewrite : Rewrite) (property : Option String) : Prop :=
  ∀ file source declaration,
    Forest.isDeclaration property (.leaf (.declaration declaration)) = false →
      (rewrite file source declaration).value.nodes = [.leaf source (.declaration declaration)]

theorem loopRule_rewrites {rewrite : Rewrite} {work : NodeId → Step Unit}
    {property : Option String} (rewrites : Rewrites rewrite work property)
    (leavesAlone : LeavesAlone rewrite property) (limit : Nat) :
    LoopRule (fun _ kind => Forest.isDeclaration property kind) work limit
      fun _ file row row' =>
        nodesOf row' = (rewriteIn rewrite file (nodesOf row)).value.nodes ∧ SameRules row row' where
  nil _ _ := ⟨rfl, .refl []⟩
  keepLeaf := by
    rintro inKeyframes file id source content rest rest' notFor ⟨isRest, sameRules⟩
    have isHere : ((Node.leaf source content).rewrite rewrite file).value.nodes =
        [.leaf source content] := by
      cases content with
      | comment => rfl
      | declaration declaration => exact leavesAlone file source declaration notFor
    refine ⟨?_, ?_, fun inKeyframes => ?_⟩
    · change _ = ((Node.leaf source content).rewrite rewrite file).value.nodes ++
        (rewriteIn rewrite file (nodesOf rest)).value.nodes
      rw [isHere, ← isRest]
      rfl
    · simp [Tagged.node, sameRules.height]
    · simp [sameRules.rules]
  keepBlock := by
    rintro inKeyframes file id source head settled children children' rest rest' -
      ⟨isBelow, sameBelow⟩ ⟨isRest, sameRest⟩
    refine ⟨?_, ?_, fun inKeyframes => ?_⟩
    · change _ :: _ = [Node.block source head settled
        (rewriteIn rewrite source (nodesOf children)).value.nodes] ++
          (rewriteIn rewrite file (nodesOf rest)).value.nodes
      rw [← isBelow, ← isRest]
      rfl
    · simp [Tagged.node, sameBelow.height, sameRest.height]
    · simp [sameBelow.rules, sameRest.rules]
  workLeaf := by
    intro inKeyframes id source content isFor stage holder front back isContainer noCursors holds
    cases content with
    | comment => cases isFor
    | declaration declaration =>
        refine (rewrites isFor isContainer noCursors holds).mono ?_
        rintro _ turned ⟨isHere, leaves⟩ rest rest' ⟨isRest, sameRest⟩
        refine ⟨?_, ?_, fun inKeyframes => ?_⟩
        · rw [nodesOf_append, isHere, isRest]
          rfl
        · rw [nodesOf_append, heightIn_append, height_of_leaves leaves, sameRest.height]
          simp [Tagged.node]
        · rw [select_append, select_isFree_of_leaves leaves, sameRest.rules]
          simp [isFree, Forest.isRule]
  workBlock := by
    intro inKeyframes id source head settled children isFor
    cases isFor

/-- A stage goes over all declarations below a rule that it is for. -/
theorem turns_eachDeclaration {rewrite : Rewrite} {work : NodeId → Step Unit}
    {property : Option String} (rewrites : Rewrites rewrite work property)
    (leavesAlone : LeavesAlone rewrite property)
    (within : heightIn (nodesOf children) < worker.levels)
    (holds : stage.Holds (Tagged.entries parent (.block id source head settled children))) :
    Turns (worker.eachDeclaration id property work) stage (Tagged.entries parent)
      (.block id source head settled children) fun _ turned => ∃ children',
        turned = .block id source head settled children' ∧
          nodesOf children' = (rewriteIn rewrite source (nodesOf children)).value.nodes ∧
            SameRules children children' := by
  have found : (stage.1.belowTo worker.levels id).filter (fun node =>
      Forest.isDeclaration property (stage.1.cell node).kind) =
        select (fun _ kind => Forest.isDeclaration property kind) head.isKeyframes children :=
    filter_belowTo (fun _ kind => Forest.isDeclaration property kind) holds within
  rw [Worker.eachDeclaration]
  refine Turns.get ?_
  dsimp only
  rw [found]
  exact (loopRule_rewrites rewrites leavesAlone worker.levels).turnsBelow (Nat.le_of_lt within)
    holds

/-! ## The work of each stage -/

theorem rewrites_makeSticky : Rewrites stickyStage Worker.makeSticky (some "position") := by
  intro stage holder front back id source declaration isFor isContainer noCursors holds
  have isPosition : declaration.isPosition = true := isFor
  have holdsLeaf := holds.ofSingle
  have turns : Turns (Worker.makeSticky id) stage (Tagged.entries (some holder.id))
      (.leaf id source (.declaration declaration)) fun _ turned => turned.id = id ∧
        turned.node = .leaf source (.declaration declaration.makeSticky) := by
    rw [Worker.makeSticky]
    refine Turns.get ?_
    rw [declaration?_leaf holdsLeaf]
    dsimp only
    rw [Declaration.makeSticky]
    split
    · refine (turns_value holdsLeaf "sticky").mono ?_
      rintro _ _ rfl
      exact ⟨rfl, rfl⟩
    · exact Turns.pure holdsLeaf ⟨rfl, rfl⟩
  refine (turns.single (fun _ _ same => same.1) holds).mono ?_
  rintro _ _ ⟨tree, rfl, -, isNode⟩
  rw [nodesOf_cons, nodesOf_nil, isNode]
  refine ⟨?_, List.forall_mem_singleton.mpr rfl⟩
  simp [stickyStage, Rewrite.silent, isPosition]

theorem leavesAlone_stickyStage : LeavesAlone stickyStage (some "position") := by
  intro file source declaration notFor
  have notPosition : declaration.isPosition = false := notFor
  simp [stickyStage, Rewrite.silent, notPosition]

theorem rewrites_hideOffset (edge : String) :
    Rewrites (offsetStage edge) Worker.hideOffset (some edge) := by
  intro stage holder front back id source declaration isFor isContainer noCursors holds
  have isEdge : (declaration.property == edge) = true := isFor
  have holdsLeaf := holds.ofSingle
  have isSource : (stage.1.cell id).source = source :=
    congrArg Cell.source (holdsLeaf.isIn _ List.mem_cons_self).cell
  let variableLeaf := Leaf.declaration declaration.variableDeclaration
  rw [Worker.hideOffset]
  refine Turns.get ?_
  dsimp only
  rw [declaration?_leaf holdsLeaf, isSource]
  refine Makes.bind (makes_create holds (.leaf variableLeaf) source) ?_
  rintro new stage' _ reshapes rfl
  have inserted := makes_before (.leaf id source (.declaration declaration))
    [.leaf new source variableLeaf] reshapes.holds isContainer noCursors
  refine Makes.bind inserted ?_
  rintro _ stage'' _ reshapes' rfl
  have holds' := reshapes'.holds
  have holdsRight := (holds'.perm (Entry.part_append_perm ..)).left
  have turns := (turns_value holdsRight.ofSingle declaration.referToVariable.value).singleEq rfl
    holdsRight
  refine (turns.onRight [.leaf new (source.or holder.cell.source) variableLeaf] holds').mono ?_
  rintro _ _ ⟨_, rfl, rfl⟩
  refine ⟨?_, ?_⟩
  · simp [offsetStage, Rewrite.silent, isEdge, Tagged.node, variableLeaf,
      Declaration.referToVariable]
  · simp [Tagged.node, Node.isLeaf]

theorem leavesAlone_offsetStage (edge : String) : LeavesAlone (offsetStage edge) (some edge) := by
  intro file source declaration notFor
  have notEdge : (declaration.property == edge) = false := notFor
  simp [offsetStage, Rewrite.silent, notEdge]

theorem rewrites_convertValue (skipped : List String) :
    Rewrites (unitStage worker.toggle.converter skipped) (worker.convertValue skipped) none := by
  intro stage holder front back id source declaration _ isContainer noCursors holds
  have holdsLeaf := holds.ofSingle
  have turns : Turns (worker.convertValue skipped id) stage (Tagged.entries (some holder.id))
      (.leaf id source (.declaration declaration)) fun _ turned => turned.id = id ∧
        ∃ changed, turned = .leaf id source (.declaration changed) ∧
          (unitStage worker.toggle.converter skipped holder.cell.source source
            declaration).value.nodes = [.leaf source (.declaration changed)] := by
    rw [Worker.convertValue]
    refine Turns.get ?_
    rw [declaration?_leaf holdsLeaf]
    dsimp only
    rw [unitStage]
    cases skipped.contains declaration.property with
    | true => exact Turns.pure holdsLeaf ⟨rfl, declaration, rfl, rfl⟩
    | false =>
        refine Turns.bind (Turns.reach _ holdsLeaf) ?_
        rintro _ stage' _ holds' rfl
        cases changes : worker.toggle.converter.changes declaration with
        | true =>
            refine (turns_value holds' _).mono ?_
            rintro _ _ rfl
            exact ⟨rfl, _, rfl, rfl⟩
        | false =>
            have same : worker.toggle.converter.convertDeclaration declaration = declaration := by
              have sameValue := bne_eq_false_iff_eq.mp changes
              rw [Converter.convertDeclaration, sameValue]
            refine Turns.pure holds' ⟨rfl, declaration, rfl, ?_⟩
            exact congrArg (fun converted => [Node.leaf source (.declaration converted)]) same
  refine (turns.single (fun _ _ same => same.1) holds).mono ?_
  rintro _ _ ⟨_, rfl, -, changed, rfl, areNodes⟩
  rw [areNodes]
  exact ⟨rfl, List.forall_mem_singleton.mpr rfl⟩

theorem leavesAlone_unitStage (skipped : List String) :
    LeavesAlone (unitStage worker.toggle.converter skipped) none := by
  intro file source declaration notFor
  cases notFor

/-! ## All stages -/

/-- The offsets go behind their variables, one edge after the other. -/
theorem turns_hideOffsets (edges : List String)
    (within : heightIn (nodesOf children) < worker.levels)
    (holds : stage.Holds (Tagged.entries parent (.block id source head settled children))) :
    Turns (edges.forM fun edge => worker.eachDeclaration id (some edge) Worker.hideOffset) stage
      (Tagged.entries parent) (.block id source head settled children) fun _ turned => ∃ children',
        turned = .block id source head settled children' ∧
          nodesOf children' = hideOffsets edges source (nodesOf children) ∧
            SameRules children children' := by
  induction edges generalizing stage children with
  | nil => exact Turns.pure holds ⟨children, rfl, rfl, .refl children⟩
  | cons edge edges inductionHypothesis =>
      rw [List.forM_eq_forM, List.forM_cons]
      refine Turns.bind (turns_eachDeclaration (rewrites_hideOffset edge)
        (leavesAlone_offsetStage edge) within holds) ?_
      rintro _ stage' _ holds' ⟨children', rfl, areNodes, same⟩
      have within' : heightIn (nodesOf children') < worker.levels := same.height ▸ within
      refine (inductionHypothesis within' holds').mono ?_
      rintro _ _ ⟨children'', rfl, areNodes', same'⟩
      refine ⟨children'', rfl, ?_, same.trans same'⟩
      rw [areNodes', areNodes]
      rfl

/-- Processing a rule leaves the children of a container variant. -/
theorem turns_process (within : heightIn (nodesOf children) < worker.levels)
    (holds : stage.Holds (Tagged.entries parent (.block id source head settled children))) :
    Turns (worker.process id) stage (Tagged.entries parent) (.block id source head settled children)
      fun _ turned => ∃ children', turned = .block id source head settled children' ∧
        nodesOf children' = (worker.toggle.variantChildren source (nodesOf children)).value ∧
          SameRules children children' := by
  have isVariant : (worker.toggle.variantChildren source (nodesOf children)).value =
      (processInStages worker.toggle.converter source (nodesOf children)).value.children := by
    rw [← processChildren_eq_processInStages]
    rfl
  rw [isVariant, Worker.process]
  refine Turns.get ?_
  dsimp only
  rw [hasFixed_eq holds within]
  cases isFixed : hasFixedPosition (nodesOf children) with
  | false =>
      refine (turns_eachDeclaration (rewrites_convertValue []) (leavesAlone_unitStage []) within
        holds).mono ?_
      rintro _ _ ⟨children', rfl, areNodes, same⟩
      refine ⟨children', rfl, ?_, same⟩
      rw [areNodes, processInStages, isFixed]
      rfl
  | true =>
      refine Turns.bind (turns_eachDeclaration rewrites_makeSticky leavesAlone_stickyStage within
        holds) ?_
      rintro _ stage' _ holds' ⟨sticky, rfl, areSticky, sameSticky⟩
      have within' : heightIn (nodesOf sticky) < worker.levels := sameSticky.height ▸ within
      refine Turns.bind (turns_hideOffsets edges within' holds') ?_
      rintro _ stage'' _ holds'' ⟨hidden, rfl, areHidden, sameHidden⟩
      have within'' : heightIn (nodesOf hidden) < worker.levels := sameHidden.height ▸ within'
      refine (turns_eachDeclaration (rewrites_convertValue ("position" :: edges))
        (leavesAlone_unitStage _) within'' holds'').mono ?_
      rintro _ _ ⟨children', rfl, areNodes, same⟩
      refine ⟨children', rfl, ?_, (sameSticky.trans sameHidden).trans same⟩
      rw [areNodes, areHidden, areSticky, processInStages, isFixed]
      rfl

end Step

end ContainerPreview
