import ContainerPreview.Proofs.Sheet.Origin
import ContainerPreview.Proofs.Toggle.Covers

/-!
# Where the nodes of a treated sheet come from

Whatever a pass puts into a sheet comes from files of the sheet, and its keyframes hold the
rows of selector lists that those of the sheet hold: no rule directly in keyframes has its
selector list changed, neither in place nor in a copy.
-/

namespace ContainerPreview

namespace Toggle

open Origin

variable {toggle : Toggle} {origin : Origin}

/-! ## Variants and copies -/

theorem admitsAll_variantChildren {file : Option String} {children : List Node}
    (admitsAll : origin.AdmitsAll children) (ofFile : origin.file file) :
    origin.AdmitsAll (toggle.variantChildren file children).value :=
  admitsAll.nodesVariant _ _ ofFile

theorem admitsAll_variants {around source : Option String} (selector : String)
    {children : List Node} (admitsAll : origin.AdmitsAll children)
    (ofAround : origin.file around) (ofSource : origin.file source) :
    origin.AdmitsAll (toggle.forkRule around source selector children).value.variants := by
  unfold forkRule
  split
  · exact admitsAll_noFrames (file_or ofSource ofAround) rfl
      (admitsAll_variantChildren (admitsAll.copyInto ofSource) ofSource)
  · exact admitsAll_nil

/-- After `enter`, nodes come from the same origin, and directly in keyframes the rules have
the selector lists that they had. -/
def EntersAdmitted (enter : Bool → List Node → Traced (List Node)) : Prop :=
  ∀ (origin : Origin) (inKeyframes : Bool) (nodes : List Node), origin.AdmitsAll nodes →
    origin.AdmitsAll (enter inKeyframes nodes).value ∧
      (inKeyframes → ownSelectors (enter inKeyframes nodes).value = ownSelectors nodes)

theorem admitsAll_convertCopy {enter : Bool → List Node → Traced (List Node)}
    (entersAdmitted : EntersAdmitted enter) (inKeyframes : Bool) {node : Node}
    (admitsAll : origin.AdmitsAll [node]) :
    origin.AdmitsAll [(toggle.convertCopy enter inKeyframes node).value] ∧
      (inKeyframes →
        ownSelectors [(toggle.convertCopy enter inKeyframes node).value] =
          ownSelectors [node]) := by
  cases node with
  | leaf source content => exact ⟨admitsAll, fun _ => rfl⟩
  | block source head settled children =>
      obtain ⟨⟨ofSource, ofFrames⟩, childrenAdmitted, -⟩ := admitsAll_block_iff.mp admitsAll
      cases head with
      | rule selector =>
          cases inKeyframes with
          | true =>
              exact ⟨admitsAll_noFrames ofSource rfl
                (entersAdmitted origin false children childrenAdmitted).1, fun _ => rfl⟩
          | false =>
              have converted : origin.AdmitsAll (toggle.variantChildren source children).value :=
                admitsAll_variantChildren childrenAdmitted ofSource
              exact ⟨admitsAll_noFrames ofSource rfl (entersAdmitted origin false _ converted).1,
                fun isKeyframes => by cases isKeyframes⟩
      | sheet =>
          exact ⟨admitsAll_noFrames ofSource rfl
            (entersAdmitted origin false children childrenAdmitted).1, fun _ => rfl⟩
      | atRule name params hasBlock =>
          obtain ⟨entered, sameSelectors⟩ := entersAdmitted origin
            (Head.atRule name params hasBlock).isKeyframes children childrenAdmitted
          refine ⟨admitsAll_block ofSource (fun isKeyframes => ?_) entered, fun _ => rfl⟩
          rw [sameSelectors isKeyframes]
          exact ofFrames isKeyframes

theorem entersAdmitted_convertCopies (levels : Nat) :
    EntersAdmitted (toggle.convertCopies levels) := by
  induction levels with
  | zero => exact fun origin inKeyframes nodes admitsAll => ⟨admitsAll, fun _ => rfl⟩
  | succ levels inductionHypothesis =>
      intro origin inKeyframes nodes admitsAll
      simp only [convertCopies, Traced.value_mapM]
      induction nodes with
      | nil => exact ⟨admitsAll, fun _ => rfl⟩
      | cons node rest ofRest =>
          obtain ⟨nodeAdmitted, restAdmitted⟩ := admitsAll_cons_iff.mp admitsAll
          obtain ⟨converted, sameSelectors⟩ :=
            admitsAll_convertCopy inductionHypothesis inKeyframes nodeAdmitted
          obtain ⟨restConverted, restSelectors⟩ := ofRest restAdmitted
          rw [List.map_cons]
          refine ⟨admitsAll_cons_iff.mpr ⟨converted, restConverted⟩, fun isKeyframes => ?_⟩
          rw [← List.singleton_append, ownSelectors_append, sameSelectors isKeyframes,
            restSelectors isKeyframes, ← ownSelectors_append, List.singleton_append]

theorem admitsAll_previewCopy {node : Node} (admitsAll : origin.AdmitsAll [node]) :
    origin.AdmitsAll (toggle.previewCopy node).value := by
  have copied := admitsAll.copy
  have convertedAll : origin.AdmitsAll
      (toggle.convertCopies node.copy.height false [node.copy]).value :=
    (entersAdmitted_convertCopies _ origin false _ copied).1
  rcases node with _ | ⟨source, _ | selector | _, settled, children⟩
  · exact convertedAll
  · exact convertedAll
  · obtain ⟨⟨ofSource, -⟩, childrenAdmitted, -⟩ := admitsAll_block_iff.mp copied
    exact admitsAll_noFrames ofSource rfl (admitsAll_variantChildren childrenAdmitted ofSource)
  · exact convertedAll

/-! ## Container blocks -/

theorem admitsAll_allContainers {treatment : Treatment}
    (copies : origin.AdmitsAll treatment.copies)
    (containers : origin.AdmitsAll treatment.containers) (conditions : List String) :
    origin.AdmitsAll (treatment.allContainers conditions) := by
  rw [Treatment.allContainers_eq]
  refine admitsAll_append_iff.mpr ⟨?_, containers⟩
  split
  · exact admitsAll_nil
  · exact admitsAll_noFrames origin.noFile (Head.isKeyframes_container _ _) copies

variable (toggle) in
theorem admitsAll_copies_treatNodes (conditions : List String) (around : Option String)
    {nodes : List Node} (admitsAll : origin.AdmitsAll nodes) :
    origin.AdmitsAll (treatNodes toggle conditions around nodes).copies :=
  toggle.copies_treatNodes_of_partwise (partwise_admitsAll origin) conditions around
    fun _ member _ => admitsAll_previewCopy (admitsAll.of_mem member)

variable (toggle) in
theorem admitsAll_containers_treatNodes (conditions : List String) (around : Option String)
    {nodes : List Node} (admitsAll : origin.AdmitsAll nodes) :
    origin.AdmitsAll (treatNodes toggle conditions around nodes).containers := by
  induction nodes using nest_induction generalizing conditions around with
  | nil => exact admitsAll_nil
  | media source params hasBlock settled children rest ofChildren ofRest =>
      obtain ⟨-, childrenAdmitted, restAdmitted⟩ := admitsAll_block_iff.mp admitsAll
      rw [treatNodes_cons, Treatment.containers_append, admitsAll_append_iff]
      refine ⟨?_, ofRest conditions around restAdmitted⟩
      cases holds : (Media.conditions toggle.hook params).value with
      | none =>
          rw [treatNode_media_of_none _ _ _ _ _ _ _ holds]
          exact admitsAll_nil
      | some own =>
          rw [treatNode_media_of_some _ _ _ _ _ _ _ holds]
          exact admitsAll_allContainers
            (toggle.admitsAll_copies_treatNodes (Media.combine conditions own) source
              childrenAdmitted) (ofChildren _ source childrenAdmitted) _
  | other node rest isOther ofRest =>
      rw [treatNodes_cons, Treatment.containers_append, containers_treatNode_other _ _ _ isOther]
      exact ofRest conditions around (admitsAll_cons_iff.mp admitsAll).2

/-! ## The pass -/

/-- What the steps of a pass make of the nodes at a place comes from where the nodes come
from, and directly in keyframes the rules have the selector lists that they had. -/
structure StaysAdmitted (origin : Origin) (place : Place) (before after : List Node) :
    Prop where
  admitsAll : origin.file place.around → origin.AdmitsAll before → origin.AdmitsAll after
  frames : place.inKeyframes → ownSelectors after = ownSelectors before

namespace StaysAdmitted

variable {place : Place} {source : Option String} {head head' : Head}
  {settled settled' : Bool} {children children' : List Node}

/-- A block whose head is changed only where it may be. -/
theorem ofBlock (sameKind : head'.isKeyframes = head.isKeyframes)
    (sameHead : place.inKeyframes → head' = head)
    (ofChildren : StaysAdmitted origin (place.within source head) children children') :
    StaysAdmitted origin place [.block source head settled children]
      [.block source head' settled' children'] where
  admitsAll _ admitsAll := by
    obtain ⟨⟨ofSource, ofFrames⟩, childrenAdmitted, -⟩ := admitsAll_block_iff.mp admitsAll
    refine admitsAll_block ofSource (fun isKeyframes => ?_)
      (ofChildren.admitsAll ofSource childrenAdmitted)
    rw [sameKind] at isKeyframes
    rw [ofChildren.frames isKeyframes]
    exact ofFrames isKeyframes
  frames isKeyframes := by
    rw [sameHead isKeyframes]
    exact ownSelectors_block ..

theorem refl (place : Place) (nodes : List Node) : StaysAdmitted origin place nodes nodes :=
  ⟨fun _ => id, fun _ => rfl⟩

end StaysAdmitted

variable (toggle) in
/-- Staying admitted covers a pass. -/
theorem covers_staysAdmitted (origin : Origin) : toggle.CoversAt (StaysAdmitted origin) where
  refl := .refl
  trans first second :=
    ⟨fun ofAround => second.admitsAll ofAround ∘ first.admitsAll ofAround,
      fun inKeyframes => (second.frames inKeyframes).trans (first.frames inKeyframes)⟩
  append ofLeft ofRight := by
    refine ⟨fun ofAround admitsAll => ?_, fun inKeyframes => ?_⟩
    · rw [admitsAll_append_iff] at admitsAll ⊢
      exact ⟨ofLeft.admitsAll ofAround admitsAll.1, ofRight.admitsAll ofAround admitsAll.2⟩
    · rw [ownSelectors_append, ownSelectors_append, ofLeft.frames inKeyframes,
        ofRight.frames inKeyframes]
  rule := .ofBlock rfl fun _ => rfl
  block _ := .ofBlock rfl fun _ => rfl
  settle _ _ _ _ _ := .ofBlock rfl (fun _ => rfl) (.refl _ _)
  scope free _ _ _ _ :=
    .ofBlock rfl (fun inKeyframes => absurd inKeyframes (Bool.eq_false_iff.mp free)) (.refl _ _)
  fork {place} free source selector children := by
    refine ⟨fun ofAround admitsAll => ?_,
      fun inKeyframes => absurd inKeyframes (Bool.eq_false_iff.mp free)⟩
    obtain ⟨⟨ofSource, -⟩, childrenAdmitted, -⟩ := admitsAll_block_iff.mp admitsAll
    exact admitsAll_cons_iff.mpr ⟨admitsAll_noFrames ofSource rfl childrenAdmitted,
      admitsAll_variants selector childrenAdmitted ofAround ofSource⟩
  preview place conditions source params hasBlock children := by
    refine ⟨fun ofAround admitsAll => ?_, fun _ => ?_⟩
    · obtain ⟨⟨ofSource, ofFrames⟩, childrenAdmitted, -⟩ := admitsAll_block_iff.mp admitsAll
      have containers := admitsAll_allContainers
        (toggle.admitsAll_copies_treatNodes conditions source childrenAdmitted)
        (toggle.admitsAll_containers_treatNodes conditions source childrenAdmitted) conditions
      exact admitsAll_block_iff.mpr ⟨⟨ofSource, ofFrames⟩, childrenAdmitted,
        containers.map_inherit ofAround⟩
    · rw [ownSelectors_atRule, ownSelectors_of_isContainerBlock
        (isContainerBlock_of_mem_after toggle conditions source place.around children)]
      rfl

/-! ## The context rule -/

theorem admitsAll_neededContext {source : Option String} (ofSource : origin.file source)
    (nodes : List Node) : origin.AdmitsAll (toggle.neededContext source nodes) := by
  unfold neededContext
  split
  · refine admitsAll_noFrames ofSource rfl ?_
    exact admitsAll_leaf_iff.mpr ⟨ofSource, admitsAll_leaf ofSource⟩
  · exact admitsAll_nil

theorem admitsAll_addedContext {source : Option String} (ofSource : origin.file source)
    (nodes : List Node) : origin.AdmitsAll (toggle.addedContext source nodes) := by
  rw [← clearMarksIn_neededContext, admitsAll_clearMarksIn_iff]
  exact admitsAll_neededContext ofSource _

end Toggle

end ContainerPreview
