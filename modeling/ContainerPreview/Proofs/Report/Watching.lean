import ContainerPreview.Report.Reporter

/-!
# What a reporter shows and what it counts

Whether a reporter shows anything, and of which files, is set once and has no bearing on what
it counts.  The files in its statistics are those of the remarks that it has shown, which are
the remarks on files that its filter lets pass.  A reporter that shows nothing has no lines
and no files.
-/

namespace ContainerPreview

theorem mem_insertText {text other : String} {texts : List String} :
    other ∈ insertText text texts ↔ other = text ∨ other ∈ texts := by
  induction texts with
  | nil => simp [insertText]
  | cons first rest inductionHypothesis =>
      rw [insertText]
      split
      · rename_i same
        obtain rfl : text = first := by simpa using same
        simp
      · split
        · simp
        · rw [List.mem_cons, inductionHypothesis, List.mem_cons, or_left_comm]

/-! ## Counts -/

/-- Both statistics have counted the same: rules, media blocks, fixed positions and units. -/
structure Stats.SameCounts (left right : Stats) : Prop where
  rules : left.rules = right.rules
  media : left.media = right.media
  fixed : left.fixed = right.fixed
  units : left.units = right.units

namespace Stats.SameCounts

variable {left middle right : Stats}

theorem refl (stats : Stats) : stats.SameCounts stats :=
  ⟨rfl, rfl, rfl, rfl⟩

theorem symm (same : left.SameCounts right) : right.SameCounts left :=
  ⟨same.rules.symm, same.media.symm, same.fixed.symm, same.units.symm⟩

theorem trans (first : left.SameCounts middle) (second : middle.SameCounts right) :
    left.SameCounts right :=
  ⟨first.rules.trans second.rules, first.media.trans second.media,
    first.fixed.trans second.fixed, first.units.trans second.units⟩

theorem count (same : left.SameCounts right) (event : Event) :
    (Reporter.count left event).SameCounts (Reporter.count right event) := by
  obtain ⟨rules, media, fixed, units⟩ := same
  constructor <;> cases event <;> simp [Reporter.count, *]

end Stats.SameCounts

namespace Reporter

variable (reporter : Reporter)

/-- Showing a line counts nothing. -/
theorem stats_write (level : Level) (message : String) :
    (reporter.write level message).stats = reporter.stats := by
  unfold write
  split <;> rfl

/-- Whatever a reporter shows, it counts the event. -/
theorem sameCounts_observe (event : Event) :
    (reporter.observe event).stats.SameCounts (count reporter.stats event) := by
  cases event with
  | note message source =>
      simp only [observe, note]
      split
      · rw [stats_write]
        exact ⟨rfl, rfl, rfl, rfl⟩
      · exact .refl _
  | warning message detail =>
      rw [observe, warn, stats_write]
      exact .refl _
  | passEnded =>
      rw [observe, stats_write]
      exact .refl _
  | _ => exact .refl _

/-- Reporters that have counted the same go on to count the same. -/
theorem sameCounts_observeAll {left right : Reporter} (events : List Event)
    (same : left.stats.SameCounts right.stats) :
    (left.observeAll events).stats.SameCounts (right.observeAll events).stats := by
  induction events generalizing left right with
  | nil => exact same
  | cons event events inductionHypothesis =>
      apply inductionHypothesis
      exact ((left.sameCounts_observe event).trans (same.count event)).trans
        (right.sameCounts_observe event).symm

/-! ## Lines and files -/

theorem debug_write (level : Level) (message : String) :
    (reporter.write level message).debug = reporter.debug := by
  unfold write
  split <;> rfl

theorem filter_write (level : Level) (message : String) :
    (reporter.write level message).filter = reporter.filter := by
  unfold write
  split <;> rfl

/-- No event has a bearing on whether events are shown and which. -/
theorem settings_observe (event : Event) :
    (reporter.observe event).debug = reporter.debug ∧
      (reporter.observe event).filter = reporter.filter := by
  cases event with
  | note message source =>
      simp only [observe, note]
      split
      · exact ⟨debug_write .., filter_write ..⟩
      · exact ⟨rfl, rfl⟩
  | warning message detail => exact ⟨debug_write .., filter_write ..⟩
  | passEnded => exact ⟨debug_write .., filter_write ..⟩
  | _ => exact ⟨rfl, rfl⟩

theorem write_of_not_debug {reporter : Reporter} (silent : reporter.debug = false)
    (level : Level) (message : String) : reporter.write level message = reporter := by
  rw [write, silent]
  rfl

theorem lines_observe_of_not_debug {reporter : Reporter} (silent : reporter.debug = false)
    (event : Event) : (reporter.observe event).lines = reporter.lines := by
  cases event with
  | note message source => rw [observe, note, silent]; rfl
  | warning message detail => rw [observe, warn, write_of_not_debug silent]
  | passEnded => rw [observe, write_of_not_debug silent]
  | _ => rfl

/-- A reporter that shows nothing writes no line. -/
theorem lines_observeAll_of_not_debug {reporter : Reporter} (silent : reporter.debug = false)
    (events : List Event) : (reporter.observeAll events).lines = reporter.lines := by
  induction events generalizing reporter with
  | nil => rfl
  | cons event events inductionHypothesis =>
      have stillSilent := (reporter.settings_observe event).1.trans silent
      exact (inductionHypothesis stillSilent).trans (lines_observe_of_not_debug silent event)

/-- The event is a remark on a node from the file. -/
def IsRemarkOn (file : String) (event : Event) : Prop :=
  ∃ message source, event = .note message source ∧ fileName source = file

theorem mem_files_observe (event : Event) (file : String) :
    file ∈ (reporter.observe event).stats.files ↔
      file ∈ reporter.stats.files ∨
        reporter.debug ∧ reporter.admits file ∧ IsRemarkOn file event := by
  cases event with
  | note message source =>
      have isRemark : IsRemarkOn file (.note message source) ↔ file = fileName source := by
        constructor
        · rintro ⟨_, _, ⟨⟩, isFile⟩
          exact isFile.symm
        · rintro rfl
          exact ⟨message, source, rfl, rfl⟩
      rw [isRemark, observe, note]
      split
      · rename_i shown
        rw [Bool.and_eq_true] at shown
        rw [stats_write, mem_insertText]
        constructor
        · rintro (rfl | earlier)
          · exact .inr ⟨shown.1, shown.2, rfl⟩
          · exact .inl earlier
        · rintro (earlier | ⟨-, -, rfl⟩)
          · exact .inr earlier
          · exact .inl rfl
      · rename_i hidden
        constructor
        · exact .inl
        · rintro (earlier | ⟨isDebug, admitted, rfl⟩)
          · exact earlier
          · exact absurd (Bool.and_eq_true_iff.mpr ⟨isDebug, admitted⟩) hidden
  | warning message detail => simp [observe, warn, stats_write, IsRemarkOn]
  | passEnded => simp [observe, stats_write, IsRemarkOn]
  | _ => simp [observe, count, IsRemarkOn]

/-- The files of a reporter are those of the remarks it has been shown that its filter lets
pass, if it shows anything. -/
theorem mem_files_observeAll (events : List Event) (file : String) :
    file ∈ (reporter.observeAll events).stats.files ↔
      file ∈ reporter.stats.files ∨
        reporter.debug ∧ reporter.admits file ∧ ∃ event ∈ events, IsRemarkOn file event := by
  induction events generalizing reporter with
  | nil => simp [observeAll]
  | cons event events inductionHypothesis =>
      obtain ⟨sameDebug, sameFilter⟩ := reporter.settings_observe event
      have sameAdmits : (reporter.observe event).admits file = reporter.admits file := by
        rw [admits, admits, sameFilter]
      have later := inductionHypothesis (reporter.observe event)
      rw [sameDebug, sameAdmits, mem_files_observe] at later
      rw [or_assoc, ← and_or_left, ← and_or_left] at later
      simp only [List.mem_cons, exists_eq_or_imp]
      exact later

end Reporter

end ContainerPreview
