import ContainerPreview.Proofs.Report.Emits
import ContainerPreview.Proofs.Report.Watching

/-!
# Quiet computations

A computation is quiet if it neither gives a rule a variant nor converts a fixed
position.  A reporter that observes it counts as many of both as before.
-/

namespace ContainerPreview

/-- The event is neither about a rule that was given a variant nor about a fixed
position that was converted. -/
def Event.isQuiet : Event → Bool
  | .ruleProcessed => false
  | .fixedConverted => false
  | _ => true

/-- All events on the way to the value are quiet. -/
def Traced.Quiet {α : Type} (traced : Traced α) : Prop :=
  ∀ event ∈ traced.events, event.isQuiet

namespace Traced

variable {α β : Type}

@[simp]
theorem quiet_pure (value : α) : Quiet (pure value) :=
  emits_pure value

theorem quiet_bind {first : Traced α} {next : α → Traced β} (ofFirst : first.Quiet)
    (ofNext : (next first.value).Quiet) : (first >>= next).Quiet :=
  emits_bind ofFirst ofNext

theorem quiet_emit {event : Event} (isQuiet : event.isQuiet) : (emit event).Quiet :=
  emits_emit isQuiet

end Traced

theorem Event.isQuiet_of_isReading {event : Event} (isReading : event.isReading) :
    event.isQuiet := by
  cases event with
  | warning message detail => rfl
  | hookCalled query => rfl
  | _ => cases isReading

/-- Reading the conditions of a media list is quiet. -/
theorem Media.quiet_conditions (hook : Option Media.Hook) (params : String) :
    (Media.conditions hook params).Quiet :=
  (Media.emits_conditions hook params).imp fun _ => Event.isQuiet_of_isReading

/-! ## Counting -/

namespace Reporter

theorem stats_observe_of_isQuiet (reporter : Reporter) {event : Event} (isQuiet : event.isQuiet) :
    (reporter.observe event).stats.rules = reporter.stats.rules ∧
      (reporter.observe event).stats.fixed = reporter.stats.fixed := by
  have counted := reporter.sameCounts_observe event
  rw [counted.rules, counted.fixed]
  cases event with
  | ruleProcessed => cases isQuiet
  | fixedConverted => cases isQuiet
  | _ => exact ⟨rfl, rfl⟩

/-- Observing quiet events counts neither rules nor fixed positions. -/
theorem stats_observeAll_of_isQuiet (reporter : Reporter) {events : List Event}
    (areQuiet : ∀ event ∈ events, event.isQuiet) :
    (reporter.observeAll events).stats.rules = reporter.stats.rules ∧
      (reporter.observeAll events).stats.fixed = reporter.stats.fixed := by
  induction events generalizing reporter with
  | nil => exact ⟨rfl, rfl⟩
  | cons event events inductionHypothesis =>
      rcases List.forall_mem_cons.mp areQuiet with ⟨isQuiet, areLater⟩
      rcases reporter.stats_observe_of_isQuiet isQuiet with ⟨sameRules, sameFixed⟩
      rcases inductionHypothesis (reporter.observe event) areLater with ⟨laterRules, laterFixed⟩
      exact ⟨laterRules.trans sameRules, laterFixed.trans sameFixed⟩

end Reporter

end ContainerPreview
