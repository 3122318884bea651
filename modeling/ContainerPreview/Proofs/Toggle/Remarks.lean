import ContainerPreview.Proofs.Report.Emits
import ContainerPreview.Proofs.Toggle.Origin

/-!
# Remarks of a pass

A pass remarks on rules that it forks, on media blocks that it visits, and on the sheet if it
adds the context rule.  Each remark names the file of the node it is about, so all of them
name files of the sheet.
-/

namespace ContainerPreview

namespace Event

/-- The event is a unit or a position that was converted. -/
def isConversion : Event → Bool
  | .unitConverted _ _ => true
  | .fixedConverted => true
  | _ => false

/-- If the event is a remark, it is one on a node from a file of the origin. -/
def IsFrom (origin : Origin) : Event → Prop
  | .note _ source => origin.file source
  | _ => True

theorem isFrom_of_isConversion (origin : Origin) {event : Event}
    (isConversion : event.isConversion) : event.IsFrom origin := by
  cases event with
  | note message source => cases isConversion
  | _ => trivial

theorem isFrom_of_isReading (origin : Origin) {event : Event} (isReading : event.isReading) :
    event.IsFrom origin := by
  cases event with
  | note message source => cases isReading
  | _ => trivial

end Event

open Traced

/-! ## Converting -/

theorem emits_convertedLeaf (converter : Converter) (source : Option String)
    (declaration : Declaration) :
    (convertedLeaf converter source declaration).Emits (·.isConversion) := by
  refine emits_bind (fun event member => ?_) (emits_pure _)
  simp only [Converter.traceDeclaration, Converter.conversionEvents] at member
  split at member
  · obtain ⟨unit, -, rfl⟩ := List.mem_map.mp member
    rfl
  · cases member

theorem emits_declarationVariant (converter : Converter) (fixed : Bool)
    (file source : Option String) (declaration : Declaration) :
    (declarationVariant converter fixed file source declaration).Emits (·.isConversion) := by
  unfold declarationVariant
  split
  · exact emits_pure _
  · split
    · exact emits_bind (emits_convertedLeaf _ _ _) (emits_pure _)
    · exact emits_convertedLeaf _ _ _

theorem emits_nodesVariant (converter : Converter) (fixed : Bool) (file : Option String)
    (nodes : List Node) :
    (nodesVariant converter fixed file nodes).Emits (·.isConversion) := by
  induction nodes using forest_induction generalizing file with
  | nil => exact emits_pure _
  | leaf source content rest ofRest =>
      refine emits_bind ?_ (emits_bind (ofRest file) (emits_pure _))
      cases content with
      | declaration declaration => exact emits_declarationVariant _ _ _ _ _
      | comment text => exact emits_pure _
  | block source head settled children rest ofChildren ofRest =>
      exact emits_bind (emits_bind (ofChildren source) (emits_pure _))
        (emits_bind (ofRest file) (emits_pure _))

namespace Toggle

variable {toggle : Toggle} {origin : Origin}

theorem emits_variantChildren (file : Option String) (children : List Node) :
    (toggle.variantChildren file children).Emits (·.isConversion) := by
  refine emits_bind ?_ (emits_bind (emits_emitIf rfl) (emits_pure _))
  exact emits_bind (emits_nodesVariant _ _ _ _) (emits_pure _)

theorem emits_convertCopies (levels : Nat) (inKeyframes : Bool) (nodes : List Node) :
    (toggle.convertCopies levels inKeyframes nodes).Emits (·.isConversion) := by
  induction levels generalizing inKeyframes nodes with
  | zero => exact emits_pure nodes
  | succ levels inductionHypothesis =>
      refine emits_mapM fun node _ => ?_
      rcases node with _ | ⟨source, _ | selector | _, settled, children⟩
      · exact emits_pure _
      · exact emits_bind (inductionHypothesis _ _) (emits_pure _)
      · rw [convertCopy]
        split
        · exact emits_bind (inductionHypothesis _ _) (emits_pure _)
        · exact emits_bind (emits_variantChildren _ _)
            (emits_bind (inductionHypothesis _ _) (emits_pure _))
      · exact emits_bind (inductionHypothesis _ _) (emits_pure _)

theorem emits_previewCopy (node : Node) :
    (toggle.previewCopy node).Emits (·.isConversion) := by
  unfold previewCopy
  split
  · exact emits_bind (emits_variantChildren _ _) (emits_pure _)
  · exact emits_convertCopies _ _ _

/-! ## Forking -/

theorem emits_forkRule (around : Option String) {source : Option String} (selector : String)
    (children : List Node) (ofSource : origin.file source) :
    (toggle.forkRule around source selector children).Emits (·.IsFrom origin) := by
  unfold forkRule
  split
  · refine emits_bind (emits_emit trivial) (emits_bind (emits_emit ofSource) ?_)
    exact emits_bind ((emits_variantChildren _ _).imp fun _ => Event.isFrom_of_isConversion origin)
      (emits_pure _)
  · exact emits_pure _

variable (toggle) in
theorem emits_forkNodes (inKeyframes : Bool) (around : Option String) {nodes : List Node}
    (admitsAll : origin.AdmitsAll nodes) :
    (forkNodes toggle inKeyframes around nodes).Emits (·.IsFrom origin) := by
  induction nodes using forest_induction generalizing inKeyframes around with
  | nil => exact emits_pure _
  | leaf source content rest ofRest =>
      have restAdmitted := (Origin.admitsAll_leaf_iff.mp admitsAll).2
      exact emits_bind (emits_pure _) (emits_bind (ofRest _ _ restAdmitted) (emits_pure _))
  | block source head settled children rest ofChildren ofRest =>
      obtain ⟨⟨ofSource, -⟩, childrenAdmitted, restAdmitted⟩ :=
        Origin.admitsAll_block_iff.mp admitsAll
      have below (inKeyframes : Bool) := ofChildren inKeyframes source childrenAdmitted
      refine emits_bind ?_ (emits_bind (ofRest _ _ restAdmitted) (emits_pure _))
      cases head with
      | sheet => exact emits_bind (below _) (emits_pure _)
      | atRule name params hasBlock => exact emits_bind (below _) (emits_pure _)
      | rule selector =>
          rw [forkNode]
          split
          · exact emits_bind (below _) (emits_pure _)
          · exact emits_bind (emits_forkRule _ _ _ ofSource)
              (emits_bind (below _) (emits_pure _))

theorem emits_forkTreated (around : Option String) {node : Node}
    (admitsAll : origin.AdmitsAll [node]) :
    (toggle.forkTreated around node).Emits (·.IsFrom origin) := by
  have forkedAll : (toggle.forkNode false around node).Emits (·.IsFrom origin) := by
    intro event member
    exact emits_forkNodes toggle false around admitsAll event
      (by simp [forkNodes, member])
  rcases node with _ | ⟨source, _ | selector | _, settled, children⟩
  · exact forkedAll
  · exact forkedAll
  · rw [forkTreated]
    split
    · exact emits_pure _
    · exact emits_bind
        (emits_forkRule _ _ _ (Origin.admitsAll_block_iff.mp admitsAll).1.1) (emits_pure _)
  · exact forkedAll

/-! ## Media blocks -/

/-- The events of a treatment, in the order in which they happen. -/
def Treatment.allEvents (treatment : Treatment) : List Event :=
  treatment.readings ++ treatment.events ++ treatment.innerEvents

/-- What happens in two treatments happens in one of them. -/
theorem Treatment.forall_allEvents_append {property : Event → Prop} {left right : Treatment}
    (ofLeft : ∀ event ∈ left.allEvents, property event)
    (ofRight : ∀ event ∈ right.allEvents, property event) :
    ∀ event ∈ (left.append right).allEvents, property event := by
  simp only [Treatment.allEvents, List.forall_mem_append] at ofLeft ofRight ⊢
  obtain ⟨⟨leftReadings, leftEvents⟩, leftInner⟩ := ofLeft
  obtain ⟨⟨rightReadings, rightEvents⟩, rightInner⟩ := ofRight
  exact ⟨⟨List.forall_mem_append.mpr ⟨leftReadings, rightReadings⟩,
    List.forall_mem_append.mpr ⟨leftEvents, rightEvents⟩⟩,
    List.forall_mem_append.mpr ⟨leftInner, rightInner⟩⟩

theorem forall_events_treat (conditions : List String) (around : Option String) {node : Node}
    (admitsAll : origin.AdmitsAll [node]) :
    ∀ event ∈ (toggle.treat conditions around node).allEvents, event.IsFrom origin := by
  unfold treat
  split
  · simpa [Treatment.allEvents, Emits] using emits_forkTreated around admitsAll
  · simpa [Treatment.allEvents, Emits] using
      (emits_previewCopy node).imp fun _ => Event.isFrom_of_isConversion origin

theorem forall_events_treatNodes (conditions : List String) (around : Option String)
    {nodes : List Node} (admitsAll : origin.AdmitsAll nodes) :
    ∀ event ∈ (treatNodes toggle conditions around nodes).allEvents, event.IsFrom origin := by
  induction nodes using nest_induction generalizing conditions around with
  | nil => exact List.forall_mem_nil _
  | media source params hasBlock settled children rest ofChildren ofRest =>
      obtain ⟨-, childrenAdmitted, restAdmitted⟩ := Origin.admitsAll_block_iff.mp admitsAll
      have readings := (Media.emits_conditions toggle.hook params).imp fun _ =>
        Event.isFrom_of_isReading origin
      rw [treatNodes_cons]
      refine Treatment.forall_allEvents_append ?_ (ofRest conditions around restAdmitted)
      cases holds : (Media.conditions toggle.hook params).value with
      | none =>
          rw [treatNode_media_of_none _ _ _ _ _ _ _ holds]
          simpa [Treatment.allEvents, Emits] using readings
      | some own =>
          have inner := ofChildren (Media.combine conditions own) source childrenAdmitted
          rw [treatNode_media_of_some _ _ _ _ _ _ _ holds]
          simp only [Treatment.allEvents, Treatment.ofBlock, List.forall_mem_append,
            List.append_nil] at inner ⊢
          obtain ⟨⟨innerReadings, innerEvents⟩, innermost⟩ := inner
          exact ⟨⟨readings, innerReadings⟩, innerEvents, innermost⟩
  | other node rest isOther ofRest =>
      obtain ⟨nodeAdmitted, restAdmitted⟩ := Origin.admitsAll_cons_iff.mp admitsAll
      rw [treatNodes_cons, treatNode_other _ _ _ isOther]
      refine Treatment.forall_allEvents_append ?_ (ofRest conditions around restAdmitted)
      split
      · exact forall_events_treat conditions around nodeAdmitted
      · exact List.forall_mem_nil _

/-! ## Visits and walks -/

theorem emits_visitMedia (around : Option String) {source : Option String} (params : String)
    (hasBlock : Bool) {children : List Node} (ofSource : origin.file source)
    (admitsAll : origin.AdmitsAll children) :
    (toggle.visitMedia around source params hasBlock children).Emits (·.IsFrom origin) := by
  unfold visitMedia
  dsimp only
  split
  · exact emits_pure _
  · refine emits_bind ((Media.emits_conditions _ _).imp fun _ => Event.isFrom_of_isReading origin) ?_
    split
    · exact emits_bind (emits_emit ofSource) (emits_pure _)
    · refine emits_bind (emits_emit trivial) (emits_bind (emits_emit ofSource) ?_)
      exact emits_bind (forall_events_treatNodes _ _ admitsAll) (emits_pure _)

theorem emits_visit (place : Place) {node : Node} (admitsAll : origin.AdmitsAll [node]) :
    (toggle.visit place node).Emits (·.IsFrom origin) := by
  unfold visit
  split
  · obtain ⟨⟨ofSource, -⟩, -⟩ := Origin.admitsAll_block_iff.mp admitsAll
    unfold visitRule
    split
    · exact emits_pure _
    · split
      · exact emits_pure _
      · exact emits_bind (emits_forkRule _ _ _ ofSource) (emits_pure _)
  · obtain ⟨⟨ofSource, -⟩, childrenAdmitted, -⟩ := Origin.admitsAll_block_iff.mp admitsAll
    exact emits_visitMedia _ _ _ ofSource childrenAdmitted
  · exact emits_pure _

/-- What is visited stays admitted, so the walks below it remark only on nodes of the
origin if such walks do. -/
theorem emits_walkNodes {below : Place → Node → Traced Node}
    (ofBelow : ∀ place node, origin.file place.around → origin.AdmitsAll [node] →
      (below place node).Emits (·.IsFrom origin))
    {place : Place} (ofAround : origin.file place.around) {nodes : List Node}
    (admitsAll : origin.AdmitsAll nodes) :
    (toggle.walkNodes below place nodes).Emits (·.IsFrom origin) := by
  induction nodes with
  | nil => exact emits_pure _
  | cons node rest inductionHypothesis =>
      obtain ⟨nodeAdmitted, restAdmitted⟩ := Origin.admitsAll_cons_iff.mp admitsAll
      have visited := ((toggle.covers_staysAdmitted origin).visit place node).admitsAll ofAround
        nodeAdmitted
      obtain ⟨visitedAdmitted, afterAdmitted⟩ := Origin.admitsAll_cons_iff.mp visited
      refine emits_bind (emits_visit place nodeAdmitted) ?_
      refine emits_bind (ofBelow place _ ofAround visitedAdmitted) ?_
      refine emits_bind (emits_mapM fun added member => ?_) ?_
      · exact ofBelow place added ofAround (afterAdmitted.of_mem member)
      · exact emits_bind (inductionHypothesis restAdmitted) (emits_pure _)

theorem emits_walkBelow (levels : Nat) {place : Place} (ofAround : origin.file place.around)
    {node : Node} (admitsAll : origin.AdmitsAll [node]) :
    (toggle.walkBelow levels place node).Emits (·.IsFrom origin) := by
  induction levels generalizing place node with
  | zero => exact emits_pure node
  | succ levels inductionHypothesis =>
      cases node with
      | leaf source content => exact emits_pure _
      | block source head settled children =>
          obtain ⟨⟨ofSource, -⟩, childrenAdmitted, -⟩ := Origin.admitsAll_block_iff.mp admitsAll
          refine emits_bind ?_ (emits_pure _)
          exact emits_walkNodes (fun place node ofAround => inductionHypothesis ofAround) ofSource
            childrenAdmitted

theorem emits_walkAll {place : Place} (ofAround : origin.file place.around) {nodes : List Node}
    (admitsAll : origin.AdmitsAll nodes) :
    (toggle.walkAll place nodes).Emits (·.IsFrom origin) :=
  emits_walkNodes (fun _ _ ofAround => emits_walkBelow _ ofAround) ofAround admitsAll

/-! ## The whole run -/

theorem admitsAll_preparedNodes {source : Option String} {children : List Node}
    (ofSource : origin.file source) (admitsAll : origin.AdmitsAll children) :
    origin.AdmitsAll (toggle.preparedNodes source children) :=
  Origin.admitsAll_append_iff.mpr
    ⟨admitsAll_neededContext ofSource _, Origin.admitsAll_clearMarksIn_iff.mpr admitsAll⟩

end Toggle

/-- All remarks of a run are on nodes from files of the sheet. -/
theorem emits_runToggle (options : Options) {origin : Origin} {tree : Node}
    (ofSource : origin.file tree.source) (admitsAll : origin.AdmitsAll tree.children) :
    (runToggle options tree).Emits (·.IsFrom origin) := by
  cases tree with
  | leaf source content =>
      have events : (runToggle options (.leaf source content)).events = [.passEnded] := rfl
      rw [Traced.Emits, events, List.forall_mem_singleton]
      trivial
  | block source head settled children =>
      rw [Traced.Emits, events_runToggle, Pass.events_addContext]
      refine List.forall_mem_append.mpr ⟨List.forall_mem_append.mpr ⟨?_, ?_⟩, ?_⟩
      · split
        · exact List.forall_mem_nil _
        · exact List.forall_mem_singleton.mpr ofSource
      · exact Toggle.emits_walkAll ofSource (Toggle.admitsAll_preparedNodes ofSource admitsAll)
      · exact List.forall_mem_singleton.mpr trivial

end ContainerPreview
