import ContainerPreview.Media.Conditions

/-!
# What a computation tells of

A property of events holds along a computation if it holds of every event on the way to the
value.  Reading the conditions of a media list, for one, tells only of warnings and of calls
of the hook.
-/

namespace ContainerPreview

/-- All events on the way to the value have the property. -/
def Traced.Emits {α : Type} (traced : Traced α) (property : Event → Prop) : Prop :=
  ∀ event ∈ traced.events, property event

namespace Traced

variable {α β : Type} {property : Event → Prop}

theorem emits_pure (value : α) : Emits (pure value) property := by
  simp [Emits]

theorem emits_bind {first : Traced α} {next : α → Traced β} (ofFirst : first.Emits property)
    (ofNext : (next first.value).Emits property) : (first >>= next).Emits property :=
  List.forall_mem_append.mpr ⟨ofFirst, ofNext⟩

theorem emits_emit {event : Event} (holds : property event) : (emit event).Emits property := by
  simpa [Emits] using holds

theorem emits_emitIf {condition : Bool} {event : Event} (holds : property event) :
    (emitIf condition event).Emits property := by
  intro other member
  rw [events_emitIf] at member
  split at member
  · rw [List.mem_singleton.mp member]
    exact holds
  · cases member

theorem emits_mapM {visit : α → Traced β} {values : List α}
    (each : ∀ value ∈ values, (visit value).Emits property) :
    (values.mapM visit).Emits property := by
  rw [Emits, events_mapM]
  exact List.forall_mem_flatMap.mpr each

theorem Emits.imp {weaker : Event → Prop} {traced : Traced α} (emits : traced.Emits property)
    (weakens : ∀ event, property event → weaker event) : traced.Emits weaker :=
  fun event member => weakens event (emits event member)

end Traced

/-- The event is a warning or a call of the hook. -/
def Event.isReading : Event → Bool
  | .warning _ _ => true
  | .hookCalled _ => true
  | _ => false

namespace Media

open Traced

theorem emits_translateQuery (query : String) : (translateQuery query).Emits (·.isReading) :=
  emits_bind (emits_emitIf rfl) (emits_pure _)

theorem emits_judge (query : String) : (judge query).Emits (·.isReading) := by
  unfold judge
  split
  · unfold judgeNegated
    split
    · exact emits_pure _
    · apply emits_bind (emits_translateQuery _)
      split
      · exact emits_bind (emits_emit rfl) (emits_pure _)
      · exact emits_pure _
  · exact emits_bind (emits_translateQuery query) (emits_pure _)

theorem emits_applyHook (hook : Option Hook) (query : String) :
    (applyHook hook query).Emits (·.isReading) := by
  cases hook with
  | none => exact emits_pure query
  | some change => exact emits_bind (emits_emit rfl) (emits_pure _)

theorem emits_gather (hook : Option Hook) (queries : List String) :
    (gather hook queries).Emits (·.isReading) := by
  induction queries with
  | nil => exact emits_pure _
  | cons query queries inductionHypothesis =>
      rw [gather]
      split
      · exact inductionHypothesis
      · refine emits_bind (emits_applyHook hook query) (emits_bind (emits_judge _) ?_)
        split
        · exact emits_pure _
        · exact inductionHypothesis
        · exact emits_bind inductionHypothesis (emits_pure _)

/-- Reading the conditions of a media list tells only of warnings and of calls of the hook. -/
theorem emits_conditions (hook : Option Hook) (params : String) :
    (conditions hook params).Emits (·.isReading) := by
  apply emits_bind (emits_gather hook _)
  split <;> exact emits_pure _

end Media

end ContainerPreview
