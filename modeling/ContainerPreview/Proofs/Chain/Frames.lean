import ContainerPreview.Proofs.Media.Copy
import ContainerPreview.Proofs.Sheet.Extended
import ContainerPreview.Proofs.Sheet.Frames
import ContainerPreview.Proofs.Toggle.Origin
import ContainerPreview.Transform.Chain

/-!
# Keyframes under a chain of transforms

The toggle and the copying of declarations leave the selectors of keyframes alone.  Copying
media blocks does not: in a block that it copies it guards the rules in keyframes as well,
where `from` and `to` are no selectors of elements.  So a chain changes the selector lists
of keyframes in media blocks only, and there by the guards of the transforms that copy the
outermost block, one upon the other.
-/

namespace ContainerPreview

/-- The rows of selector lists directly in the keyframes at any depth. -/
def framesIn (nodes : List Node) : List (List String) :=
  ((descendantsIn nodes).filter Node.isKeyframes).map fun node => ownSelectors node.children

theorem mem_framesIn {frames : List String} {nodes : List Node} :
    frames ∈ framesIn nodes ↔
      ∃ node ∈ descendantsIn nodes, node.isKeyframes ∧ ownSelectors node.children = frames := by
  simp [framesIn, and_assoc]

/-- The origin of all that has the rows of keyframe selectors of the nodes, and any files. -/
def Origin.ofFrames (frames : List String → Prop) : Origin where
  file _ := True
  noFile := trivial
  frames := frames

theorem Origin.admitsAll_ofFrames_iff {frames : List String → Prop} {nodes : List Node} :
    (Origin.ofFrames frames).AdmitsAll nodes ↔ ∀ row ∈ framesIn nodes, frames row := by
  constructor
  · intro admitsAll row member
    obtain ⟨node, isNode, isKeyframes, rfl⟩ := mem_framesIn.mp member
    exact (admitsAll node isNode).frames isKeyframes
  · intro each node isNode
    exact ⟨trivial, fun isKeyframes =>
      each _ (mem_framesIn.mpr ⟨node, isNode, isKeyframes, rfl⟩)⟩

theorem Origin.AdmitsAll.imp {frames frames' : List String → Prop} {nodes : List Node}
    (admitsAll : (Origin.ofFrames frames).AdmitsAll nodes)
    (weakens : ∀ row, frames row → frames' row) : (Origin.ofFrames frames').AdmitsAll nodes :=
  fun node member => ⟨trivial, fun isKeyframes =>
    weakens _ ((admitsAll node member).frames isKeyframes)⟩

/-! ## The toggle -/

namespace Toggle

variable {toggle : Toggle} {origin : Origin}

/-- Keeping keyframes as they are covers a pass. -/
theorem covers_keepsFrames (toggle : Toggle) :
    toggle.CoversAt fun place before after => ∀ site : Site,
      site.inKeyframes = place.inKeyframes →
        KeepsFrames (fun _ selector => selector) site before after where
  refl _ nodes site _ := .refl site nodes
  trans first second site same := (first site same).trans (second site same)
  append ofLeft ofRight site same := (ofLeft site same).append (ofRight site same)
  rule ofChildren _ _ := .rule (fun _ => rfl) (ofChildren _ rfl) .nil
  block noRule ofChildren _ _ := .block noRule (ofChildren _ rfl) .nil
  settle _ _ _ _ _ _ _ := .rule (fun _ => rfl) (.refl _ _) .nil
  scope free _ _ _ _ site same := by
    rw [free] at same
    exact .rule (fun inKeyframes => absurd inKeyframes (Bool.eq_false_iff.mp same)) (.refl _ _) .nil
  fork free _ _ _ site same := by
    rw [free] at same
    exact .rule (fun inKeyframes => absurd inKeyframes (Bool.eq_false_iff.mp same)) (.refl _ _)
      (.ofAdded fun inKeyframes => absurd inKeyframes (Bool.eq_false_iff.mp same))
  preview place conditions source params hasBlock children site same := by
    refine .block (by simp) (.refl _ _) (.ofAdded fun _ container member => ?_)
    have isContainer := isContainerBlock_of_mem_after toggle conditions source place.around
      children container member
    rcases container with _ | ⟨_, _ | _ | _, _, _⟩
    · rfl
    · rfl
    · cases isContainer
    · rfl

end Toggle

/-- A run of the toggle keeps the keyframes of a sheet as they are, and puts in none but
copies. -/
theorem runToggle_keepsFrames (options : Options) (source : Option String) (settled : Bool)
    {children : List Node} {frames : List String → Prop}
    (admitsAll : (Origin.ofFrames frames).AdmitsAll children) :
    ∃ nodes,
      (runToggle options (.block source .sheet settled children)).value =
          .block source .sheet false nodes ∧
        KeepsFrames (fun _ selector => selector) .top children nodes ∧
          (Origin.ofFrames frames).AdmitsAll nodes := by
  let toggle := Toggle.ofOptions options
  obtain ⟨nodes, isRun, keeps, stays⟩ :=
    (toggle.covers_keepsFrames.and (toggle.covers_staysAdmitted (.ofFrames frames))).exists_run
      source .sheet settled children
  have walked := stays.admitsAll trivial (Origin.admitsAll_clearMarksIn_iff.mpr admitsAll)
  refine ⟨_, isRun, ?_, Origin.admitsAll_append_iff.mpr
    ⟨Toggle.admitsAll_addedContext trivial children, Origin.admitsAll_clearMarksIn_iff.mpr walked⟩⟩
  rw [← List.nil_append children]
  exact (KeepsFrames.ofAdded fun inKeyframes => by cases inKeyframes).append
    (keeps .top rfl).of_clearMarksIn

/-! ## Copying declarations -/

namespace UnitCopy

variable (transform : UnitCopy)

theorem keepsFrames_of_extended {parent : Head} {file : Option String} {before after : List Node}
    (extended : Extended transform.IsAdded parent file before after) {site : Site}
    (same : site.inKeyframes = parent.isKeyframes) :
    KeepsFrames (fun _ selector => selector) site before after := by
  induction extended generalizing site with
  | nil => exact .nil
  | leaf _ ofRest => exact .leaf (ofRest same)
  | @rule parent _ _ _ _ _ _ added before _ _ isAdded _ ofChildren ofRest =>
      have noneAdded : site.inKeyframes → ∀ node ∈ added, node.isRule = false := by
        rw [same]
        intro inKeyframes node member
        rcases isAdded with ⟨isCopied, -⟩ | ⟨-, rfl⟩
        · exact absurd inKeyframes isCopied.notInKeyframes
        · cases member
      refine .rule (fun _ => rfl) (ofChildren rfl) ?_
      rw [← List.nil_append before]
      exact (KeepsFrames.ofAdded noneAdded).append (ofRest same)
  | block noRule _ _ ofChildren ofRest => exact .block noRule (ofChildren rfl) (ofRest same)

theorem ownSelectors_expandNodes (file : Option String) (nodes : List Node) :
    ownSelectors (transform.expandNodes true file nodes) = ownSelectors nodes := by
  induction nodes with
  | nil => rfl
  | cons node rest inductionHypothesis =>
      rw [expandNodes, ownSelectors_append, inductionHypothesis]
      rcases node with _ | ⟨source, _ | selector | _, settled, children⟩
      · rfl
      · rfl
      · simp [expandNode, addedRule?]
      · rfl

theorem admitsAll_addedRule? {frames : List String → Prop} (inKeyframes : Bool)
    (file : Option String) (selector : String) (children : List Node) :
    (Origin.ofFrames frames).AdmitsAll
      (transform.addedRule? inKeyframes file selector children).toList := by
  rw [addedRule?]
  split
  · exact Origin.admitsAll_nil
  · refine Origin.admitsAll_noFrames trivial rfl ?_
    refine (Origin.partwise_admitsAll _).iff_forall_mem.mpr fun copy member => ?_
    obtain ⟨child, -, isCopy⟩ := List.mem_filterMap.mp member
    obtain ⟨-, isConverted⟩ := transform.copyOf?_eq_some_iff.mp isCopy
    cases isConverted
    exact Origin.admitsAll_leaf trivial

theorem admitsAll_expandNodes {frames : List String → Prop} (inKeyframes : Bool)
    (file : Option String) {nodes : List Node}
    (admitsAll : (Origin.ofFrames frames).AdmitsAll nodes) :
    (Origin.ofFrames frames).AdmitsAll (transform.expandNodes inKeyframes file nodes) := by
  induction nodes using forest_induction generalizing inKeyframes file with
  | nil => exact admitsAll
  | leaf source content rest ofRest =>
      have restAdmitted := (Origin.admitsAll_leaf_iff.mp admitsAll).2
      exact Origin.admitsAll_leaf_iff.mpr ⟨trivial, ofRest inKeyframes file restAdmitted⟩
  | block source head settled children rest ofChildren ofRest =>
      obtain ⟨⟨-, ofFrames⟩, childrenAdmitted, restAdmitted⟩ :=
        Origin.admitsAll_block_iff.mp admitsAll
      refine Origin.admitsAll_append_iff.mpr ⟨?_, ofRest inKeyframes file restAdmitted⟩
      have below (inKeyframes : Bool) := ofChildren inKeyframes source childrenAdmitted
      cases head with
      | sheet => exact Origin.admitsAll_noFrames trivial rfl (below _)
      | rule selector =>
          exact Origin.admitsAll_cons_iff.mpr ⟨Origin.admitsAll_noFrames trivial rfl (below _),
            transform.admitsAll_addedRule? inKeyframes file selector children⟩
      | atRule name params hasBlock =>
          refine Origin.admitsAll_block trivial (fun isKeyframes => ?_) (below _)
          rw [isKeyframes, ownSelectors_expandNodes]
          exact ofFrames isKeyframes

end UnitCopy

/-! ## Guards in turn -/

/-- A selector list with every selector guarded by the guards in turn. -/
def guardInTurn (guards : List String) (selector : String) : String :=
  guards.foldl (fun selector guard => MediaCopy.guardList guard selector) selector

/-- The row is one of the given rows, guarded in turn by some of the guards. -/
def GuardedFrom (guards : List String) (frames : List String → Prop) (row : List String) : Prop :=
  ∃ original, frames original ∧ ∃ used, used.Sublist guards ∧ row = original.map (guardInTurn used)

@[simp]
theorem guardInTurn_nil : guardInTurn [] = id :=
  rfl

theorem guardInTurn_append (guards guards' : List String) (selector : String) :
    guardInTurn (guards ++ guards') selector = guardInTurn guards' (guardInTurn guards selector) :=
  List.foldl_append

theorem guardedFrom_of_frames (guards : List String) {frames : List String → Prop}
    {row : List String} (isRow : frames row) : GuardedFrom guards frames row := by
  refine ⟨row, isRow, [], List.nil_sublist guards, ?_⟩
  simp

theorem guardedFrom_guardList (guard : String) {frames : List String → Prop} {row : List String}
    (isRow : frames row) : GuardedFrom [guard] frames (row.map (MediaCopy.guardList guard)) :=
  ⟨row, isRow, [guard], List.Sublist.refl _, rfl⟩

/-- What is guarded twice is guarded by guards of both times. -/
theorem GuardedFrom.trans {guards guards' : List String} {frames : List String → Prop}
    {row : List String} (twice : GuardedFrom guards' (GuardedFrom guards frames) row) :
    GuardedFrom (guards ++ guards') frames row := by
  obtain ⟨_, ⟨original, isOriginal, used, isUsed, rfl⟩, used', isUsed', rfl⟩ := twice
  refine ⟨original, isOriginal, used ++ used', isUsed.append isUsed', ?_⟩
  rw [List.map_map]
  exact List.map_congr_left fun selector _ => (guardInTurn_append used used' selector).symm

/-! ## Copying media blocks -/

namespace MediaCopy

variable (transform : MediaCopy)

/-- The selector list of a rule afterwards, given the outermost media block around it. -/
def changeIn (media : Option Head) (selector : String) : String :=
  if (media.bind transform.query?).isSome then guardList transform.guard selector else selector

theorem keepsFrames_changeSelectorsIn {around : List Head} {site : Site}
    (same : site.media = around.find? Head.isMedia) (nodes : List Node) :
    KeepsFrames transform.changeIn site nodes
      (changeSelectorsIn transform.selectorsWithin around nodes) := by
  induction nodes using forest_induction generalizing around site with
  | nil => exact .nil
  | leaf source content rest ofRest => exact .leaf (ofRest same)
  | block source head settled children rest ofChildren ofRest =>
      have sameWithin : (site.within head).media = (around ++ [head]).find? Head.isMedia := by
        rw [List.find?_append, ← same, List.find?_singleton]
        rfl
      rw [changeSelectorsIn, Node.changeSelectors]
      cases head with
      | sheet => exact .block (by simp) (ofChildren sameWithin) (ofRest same)
      | rule selector =>
          refine .rule (fun _ => ?_) (ofChildren sameWithin) (ofRest same)
          rw [changeIn, same]
          rfl
      | atRule name params hasBlock => exact .block (by simp) (ofChildren sameWithin) (ofRest same)

theorem ownSelectors_guardNodes (guard : String) (nodes : List Node) :
    ownSelectors (guardNodes guard nodes) = (ownSelectors nodes).map (guardList guard) := by
  induction nodes with
  | nil => rfl
  | cons node rest inductionHypothesis =>
      rcases node with _ | ⟨source, _ | selector | _, settled, children⟩ <;>
        simp [guardNodes, guardNode, inductionHypothesis]

/-- Below a media block that is copied, keyframes have their rows guarded. -/
theorem admitsAll_guardNodes (guard : String) {frames : List String → Prop} {nodes : List Node}
    (admitsAll : (Origin.ofFrames frames).AdmitsAll nodes) :
    (Origin.ofFrames (GuardedFrom [guard] frames)).AdmitsAll (guardNodes guard nodes) := by
  induction nodes using forest_induction with
  | nil => exact Origin.admitsAll_nil
  | leaf source content rest ofRest =>
      exact Origin.admitsAll_leaf_iff.mpr
        ⟨trivial, ofRest (Origin.admitsAll_leaf_iff.mp admitsAll).2⟩
  | block source head settled children rest ofChildren ofRest =>
      obtain ⟨⟨-, ofFrames⟩, childrenAdmitted, restAdmitted⟩ :=
        Origin.admitsAll_block_iff.mp admitsAll
      rw [guardNodes, guardNode_block]
      refine Origin.admitsAll_block_iff.mpr
        ⟨⟨trivial, fun isKeyframes => ?_⟩, ofChildren childrenAdmitted, ofRest restAdmitted⟩
      rw [ownSelectors_guardNodes]
      refine guardedFrom_guardList guard (ofFrames ?_)
      cases head with
      | sheet => exact isKeyframes
      | rule selector => cases isKeyframes
      | atRule name params hasBlock => exact isKeyframes

theorem ownSelectors_copyNodes (nodes : List Node) :
    ownSelectors (copyNodes transform nodes).value.nodes = ownSelectors nodes := by
  induction nodes with
  | nil => rfl
  | cons node rest inductionHypothesis =>
      rw [copyNodes, Traced.value_bind, Traced.value_bind, Traced.value_pure,
        ownSelectors_append, inductionHypothesis]
      cases node with
      | leaf source content => rfl
      | block source head settled children =>
          cases isMedia : head.isMedia with
          | false =>
              rw [value_copyNode_other transform isMedia, ← ownSelectors_append]
              exact ownSelectors_block ..
          | true =>
              obtain ⟨params, hasBlock, rfl⟩ := exists_media_of_isMedia isMedia
              rw [value_copyNode_media]
              split <;> rfl

theorem admitsAll_copyNodes {frames : List String → Prop} {nodes : List Node}
    (admitsAll : (Origin.ofFrames frames).AdmitsAll nodes) :
    (Origin.ofFrames (GuardedFrom [transform.guard] frames)).AdmitsAll
        (copyNodes transform nodes).value.nodes ∧
      (Origin.ofFrames (GuardedFrom [transform.guard] frames)).AdmitsAll
        (copyNodes transform nodes).value.containers := by
  induction nodes using forest_induction with
  | nil => exact ⟨Origin.admitsAll_nil, Origin.admitsAll_nil⟩
  | leaf source content rest ofRest =>
      obtain ⟨restNodes, restContainers⟩ := ofRest (Origin.admitsAll_leaf_iff.mp admitsAll).2
      exact ⟨Origin.admitsAll_leaf_iff.mpr ⟨trivial, restNodes⟩, restContainers⟩
  | block source head settled children rest ofChildren ofRest =>
      obtain ⟨⟨-, ofFrames⟩, childrenAdmitted, restAdmitted⟩ :=
        Origin.admitsAll_block_iff.mp admitsAll
      obtain ⟨restNodes, restContainers⟩ := ofRest restAdmitted
      have weaker {nodes : List Node} (admitsAll : (Origin.ofFrames frames).AdmitsAll nodes) :
          (Origin.ofFrames (GuardedFrom [transform.guard] frames)).AdmitsAll nodes :=
        admitsAll.imp fun _ => guardedFrom_of_frames _
      rw [copyNodes, Traced.value_bind, Traced.value_bind, Traced.value_pure,
        Origin.admitsAll_append_iff, Origin.admitsAll_append_iff]
      suffices own :
          (Origin.ofFrames (GuardedFrom [transform.guard] frames)).AdmitsAll
              (copyNode transform (.block source head settled children)).value.nodes ∧
            (Origin.ofFrames (GuardedFrom [transform.guard] frames)).AdmitsAll
              (copyNode transform (.block source head settled children)).value.containers from
        ⟨⟨own.1, restNodes⟩, own.2, restContainers⟩
      cases isMedia : head.isMedia with
      | false =>
          obtain ⟨below, containers⟩ := ofChildren childrenAdmitted
          rw [value_copyNode_other transform isMedia]
          refine ⟨Origin.admitsAll_block trivial (fun isKeyframes => ?_) below, containers⟩
          rw [ownSelectors_copyNodes]
          exact guardedFrom_of_frames _ (ofFrames isKeyframes)
      | true =>
          obtain ⟨params, hasBlock, rfl⟩ := exists_media_of_isMedia isMedia
          have mediaAdmitted := (Origin.admitsAll_cons_iff.mp admitsAll).1
          rw [value_copyNode_media]
          split
          · exact ⟨weaker mediaAdmitted, Origin.admitsAll_nil⟩
          · exact ⟨admitsAll_guardNodes transform.guard mediaAdmitted,
              Origin.admitsAll_noFrames trivial (Head.isKeyframes_container _ _)
                (weaker (childrenAdmitted.copyInto trivial))⟩

end MediaCopy

/-! ## One transform -/

namespace Transform

/-- The guard that a transform puts before selectors, if it copies media blocks. -/
def guard? : Transform → Option String
  | .mediaCopy transform => some transform.guard
  | _ => none

/-- The guard that a transform puts before the selectors of rules whose outermost media block
is the given one. -/
def guardIn? (media : Option Head) : Transform → Option String
  | .mediaCopy transform =>
      if (media.bind transform.query?).isSome then some transform.guard else none
  | _ => none

theorem changeIn_eq (transform : MediaCopy) :
    transform.changeIn =
      fun media => guardInTurn ((Transform.mediaCopy transform).guardIn? media).toList := by
  funext media selector
  rw [MediaCopy.changeIn, guardIn?]
  split <;> rfl

/-- A transform keeps the keyframes of a sheet, with the guard that it puts before their
selectors, and puts in none but copies. -/
theorem apply_keepsFrames (transform : Transform) (source : Option String) (settled : Bool)
    {children : List Node} {frames : List String → Prop}
    (admitsAll : (Origin.ofFrames frames).AdmitsAll children) :
    ∃ settled' nodes,
      (transform.apply (.block source .sheet settled children)).value =
          .block source .sheet settled' nodes ∧
        KeepsFrames (fun media => guardInTurn (transform.guardIn? media).toList) .top children
            nodes ∧
          (Origin.ofFrames (GuardedFrom transform.guard?.toList frames)).AdmitsAll nodes := by
  cases transform with
  | toggle options =>
      obtain ⟨nodes, isRun, keeps, nodesAdmitted⟩ :=
        runToggle_keepsFrames options source settled admitsAll
      exact ⟨false, nodes, isRun, keeps, nodesAdmitted.imp fun _ => guardedFrom_of_frames _⟩
  | unitCopy transform =>
      have extended := transform.extended_expandNodes .sheet source children
      exact ⟨settled, _, rfl, transform.keepsFrames_of_extended extended rfl,
        (transform.admitsAll_expandNodes false source admitsAll).imp fun _ =>
          guardedFrom_of_frames _⟩
  | mediaCopy transform =>
      have noneAround : ([] : List Head).any Head.isMedia = false := rfl
      obtain ⟨nodesAdmitted, containersAdmitted⟩ := transform.admitsAll_copyNodes admitsAll
      refine ⟨settled, _, rfl, ?_,
        Origin.admitsAll_append_iff.mpr ⟨nodesAdmitted, containersAdmitted.map_inherit trivial⟩⟩
      rw [(transform.copyNodes_describes noneAround children).1, ← changeIn_eq,
        ← List.append_nil children]
      refine KeepsFrames.append ?_ (.ofAdded fun inKeyframes => by cases inKeyframes)
      rw [List.append_nil]
      exact transform.keepsFrames_changeSelectorsIn rfl children

/-! ## Chains -/

/-- What the first transform of a chain gives comes first. -/
theorem filterMap_cons_eq_append {α : Type} (f : Transform → Option α) (transform : Transform)
    (transforms : List Transform) :
    (transform :: transforms).filterMap f = (f transform).toList ++ transforms.filterMap f := by
  cases isValue : f transform <;> simp [isValue]

theorem exists_applyAll_keepsFrames (transforms : List Transform) (source : Option String)
    (settled : Bool) {children : List Node} {frames : List String → Prop}
    (admitsAll : (Origin.ofFrames frames).AdmitsAll children) :
    ∃ settled' nodes,
      (applyAll transforms (.block source .sheet settled children)).value =
          .block source .sheet settled' nodes ∧
        KeepsFrames (fun media => guardInTurn (transforms.filterMap (guardIn? media))) .top
            children nodes ∧
          (Origin.ofFrames (GuardedFrom (transforms.filterMap guard?) frames)).AdmitsAll
            nodes := by
  induction transforms generalizing settled children frames with
  | nil =>
      exact ⟨settled, children, rfl, .refl _ _, admitsAll.imp fun _ => guardedFrom_of_frames _⟩
  | cons transform transforms inductionHypothesis =>
      obtain ⟨between, nodes, isStep, keeps, nodesAdmitted⟩ :=
        transform.apply_keepsFrames source settled admitsAll
      obtain ⟨settled', later, isRun, keepsLater, laterAdmitted⟩ :=
        inductionHypothesis between nodesAdmitted
      refine ⟨settled', later, ?_, ?_, ?_⟩
      · rw [applyAll, Traced.value_bind, isStep, isRun]
      · have inTurn :
            (fun media => guardInTurn ((transform :: transforms).filterMap (guardIn? media))) =
              fun media selector => guardInTurn (transforms.filterMap (guardIn? media))
                (guardInTurn (transform.guardIn? media).toList selector) := by
          funext media selector
          rw [filterMap_cons_eq_append, guardInTurn_append]
        rw [inTurn]
        exact keeps.trans keepsLater
      · rw [filterMap_cons_eq_append]
        exact laterAdmitted.imp fun _ => GuardedFrom.trans

/-- A chain keeps every rule directly in keyframes where it is, and its selector list is the
one it had, guarded in turn by the transforms that copy the outermost media block around it.
No rule is put in directly in keyframes, and keyframes that are put in are copies: the row of
their selector lists is one of the sheet, guarded in turn by some of the transforms. -/
theorem applyAll_keepsFrames (transforms : List Transform) (source : Option String)
    (settled : Bool) (children : List Node) :
    ∃ settled' nodes,
      (applyAll transforms (.block source .sheet settled children)).value =
          .block source .sheet settled' nodes ∧
        KeepsFrames (fun media => guardInTurn (transforms.filterMap (guardIn? media))) .top
            children nodes ∧
          ∀ row ∈ framesIn nodes,
            GuardedFrom (transforms.filterMap guard?) (· ∈ framesIn children) row := by
  obtain ⟨settled', nodes, isRun, keeps, admitsAll⟩ :=
    exists_applyAll_keepsFrames transforms source settled
      (Origin.admitsAll_ofFrames_iff.mpr fun _ isRow => isRow)
  exact ⟨settled', nodes, isRun, keeps, Origin.admitsAll_ofFrames_iff.mp admitsAll⟩

/-- A media block with keyframes in it, whose rules have the given selector lists. -/
def fadingMedia (start finish : String) : Node :=
  .block none (.atRule "media" "(min-width: 600px)" true) false
    [.block none (.atRule "keyframes" "fade" true) false
      [.block none (.rule start) false
          [.leaf none (.declaration { property := "left", value := "0" })],
        .block none (.rule finish) false
          [.leaf none (.declaration { property := "left", value := "1px" })]]]

/-- Copying a media block leaves neither `from` nor `to` in the keyframes of the block. -/
theorem not_applyAll_keepsSelectors :
    ¬ ∀ (transforms : List Transform) (source : Option String) (settled : Bool)
        (children : List Node), ∃ settled' nodes,
      (applyAll transforms (.block source .sheet settled children)).value =
          .block source .sheet settled' nodes ∧
        KeepsFrames (fun _ selector => selector) .top children nodes := by
  intro always
  obtain ⟨settled', nodes, isRun, keeps⟩ :=
    always [.mediaCopy {}] none false [fadingMedia "from" "to"]
  have isGuarded : (applyAll [.mediaCopy {}]
      (.block none .sheet false [fadingMedia "from" "to"])).value =
        .block none .sheet false
          [fadingMedia ":where(body:not([data-breakpoint-preview-mode])) from"
              ":where(body:not([data-breakpoint-preview-mode])) to",
            .block none (.atRule "container" "(min-width: 600px)" true) false
              (fadingMedia "from" "to").children] := by
    decide +kernel
  rw [isGuarded] at isRun
  cases isRun
  have differs : ":where(body:not([data-breakpoint-preview-mode])) from" ≠ "from" := by decide
  have isOther : "container" ≠ "media" := by decide
  generalize ":where(body:not([data-breakpoint-preview-mode])) from" = guarded at keeps differs
  generalize "container" = name at keeps isOther
  -- The guarded media block is all that the media block of the sheet can have stayed as.
  cases keeps with
  | added _ inContainers =>
      cases inContainers with
      | added _ inNothing => cases inNothing
      | block => exact isOther rfl
  | block _ inMedia =>
      cases inMedia with
      | added _ inNothing => cases inNothing
      | block _ inKeyframes =>
          cases inKeyframes with
          | added noFrame => cases noFrame (by decide)
          | rule ofSelector => exact differs (ofSelector (by decide))
          | block => exact differs rfl

end Transform

end ContainerPreview
