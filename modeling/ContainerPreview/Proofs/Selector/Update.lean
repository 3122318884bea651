import ContainerPreview.Proofs.Selector.Guard
import ContainerPreview.Proofs.Text.Split

/-!
# Updated selector lists

Updating a selector list puts every guard into it if one of its selectors is
anchored.  If none is, the list is only written anew, and doing that once more
changes nothing.
-/

namespace ContainerPreview.Selector

open Text

/-! ## Lists without later occurrences -/

theorem keepFirst_sublist (selectors : List (List Char)) :
    (keepFirst selectors).Sublist selectors := by
  induction selectors with
  | nil => exact List.Sublist.slnil
  | cons selector rest inductionHypothesis =>
      exact (List.filter_sublist.trans inductionHypothesis).cons_cons selector

@[simp]
theorem mem_keepFirst {entry : List Char} {selectors : List (List Char)} :
    entry ∈ keepFirst selectors ↔ entry ∈ selectors := by
  induction selectors with
  | nil => rfl
  | cons selector rest inductionHypothesis =>
      by_cases same : entry = selector
      · simp [keepFirst, same]
      · simp [keepFirst, same, inductionHypothesis]

theorem nodup_keepFirst (selectors : List (List Char)) : (keepFirst selectors).Nodup := by
  induction selectors with
  | nil => exact List.nodup_nil
  | cons selector rest inductionHypothesis =>
      rw [keepFirst, List.nodup_cons]
      exact ⟨by simp, inductionHypothesis.filter _⟩

theorem keepFirst_of_nodup {selectors : List (List Char)} (nodup : selectors.Nodup) :
    keepFirst selectors = selectors := by
  induction selectors with
  | nil => rfl
  | cons selector rest inductionHypothesis =>
      rw [List.nodup_cons] at nodup
      rw [keepFirst, inductionHypothesis nodup.2, List.filter_eq_self.mpr]
      intro entry member
      have differs : entry ≠ selector := fun same => nodup.1 (same ▸ member)
      simpa using differs

theorem keepFirst_keepFirst (selectors : List (List Char)) :
    keepFirst (keepFirst selectors) = keepFirst selectors :=
  keepFirst_of_nodup (nodup_keepFirst selectors)

/-! ## Selectors of a written list -/

theorem mem_selectorsOf {list selector : List Char} (member : selector ∈ selectorsOf list) :
    isWhole ',' selector ∧ trim selector = selector ∧ selector ≠ [] := by
  simp only [selectorsOf, List.mem_filter, List.mem_map] at member
  rcases member with ⟨⟨part, isPart, rfl⟩, notEmpty⟩
  refine ⟨isWhole_trim (isWhole_of_mem_splitTopLevel isPart), trim_trim part, ?_⟩
  intro empty
  simp [empty] at notEmpty

theorem pairwise_balanced_selectorsOf (list : List Char) :
    (selectorsOf list).Pairwise fun selector _ => Balanced selector := by
  apply List.Pairwise.filter _
  rw [List.pairwise_map]
  exact (pairwise_balanced_splitTopLevel ',' list).imp fun balanced => balanced_trim balanced

/-- Selectors written as a list are read from it again. -/
theorem selectorsOf_intercalate {selectors : List (List Char)}
    (ofList : ∀ selector ∈ selectors,
      isWhole ',' selector ∧ trim selector = selector ∧ selector ≠ [])
    (balanced : selectors.Pairwise fun selector _ => Balanced selector) :
    selectorsOf ([',', ' '].intercalate selectors) = selectors := by
  cases selectors with
  | nil => rfl
  | cons selector rest =>
      have trimmed : ((selector :: rest.map fun later => ' ' :: later).map trim) =
          selector :: rest := by
        rw [List.map_cons, (ofList selector List.mem_cons_self).2.1, List.map_map]
        congr 1
        have each : ∀ later ∈ rest, (trim ∘ fun later => ' ' :: later) later = later := by
          intro later member
          rw [Function.comp_apply, trim_cons_of_isBlank (by decide)]
          exact (ofList later (List.mem_cons_of_mem _ member)).2.1
        rw [List.map_congr_left each, List.map_id']
      rw [selectorsOf, splitTopLevel_intercalate (fun each member => (ofList each member).1) balanced,
        trimmed, List.filter_eq_self]
      intro each member
      simpa using (ofList each member).2.2

theorem selectorsOf_writeList_selectorsOf (list : List Char) :
    selectorsOf (writeList (selectorsOf list)) = keepFirst (selectorsOf list) := by
  refine selectorsOf_intercalate ?_ ?_
  · intro selector member
    exact mem_selectorsOf (mem_keepFirst.mp member)
  · exact (pairwise_balanced_selectorsOf list).sublist (keepFirst_sublist _)

/-! ## Guards in updated lists -/

theorem occursIn_intercalate {separator entry : List Char} {entries : List (List Char)}
    (member : entry ∈ entries) : occursIn entry (separator.intercalate entries) = true := by
  induction entries with
  | nil => cases member
  | cons first rest inductionHypothesis =>
      cases rest with
      | nil =>
          rw [List.mem_singleton] at member
          rw [member, List.intercalate_singleton]
          exact occursIn_iff.mpr ⟨[], [], by simp⟩
      | cons second others =>
          rw [List.intercalate_cons_cons]
          rcases List.mem_cons.mp member with rfl | later
          · exact occursIn_iff.mpr ⟨[], _, by rw [List.nil_append, List.append_assoc]⟩
          · rcases occursIn_iff.mp (inductionHypothesis later) with ⟨left, right, same⟩
            refine occursIn_iff.mpr ⟨first ++ separator ++ left, right, ?_⟩
            rw [same]
            simp only [List.append_assoc]

/-- Every alternative stands in the written list. -/
theorem occursIn_writeList {entry : List Char} {entries : List (List Char)}
    (member : entry ∈ entries) : occursIn entry (writeList entries) = true :=
  occursIn_intercalate (mem_keepFirst.mpr member)

theorem occursIn_trans {part between text : List Char} (first : occursIn part between = true)
    (second : occursIn between text = true) : occursIn part text = true := by
  rcases occursIn_iff.mp first with ⟨left, right, rfl⟩
  rcases occursIn_iff.mp second with ⟨before, behind, rfl⟩
  exact occursIn_iff.mpr ⟨before ++ left, right ++ behind, by simp⟩

/-- A list that has no guard after it is updated has no anchored selector. -/
theorem anchored?_eq_none_of_updateAnchored {list guard : String} {guards : List String}
    (isGuard : guard ∈ guards) (unguarded : contains (updateAnchored list guards) guard = false)
    {selector : List Char} (member : selector ∈ selectorsOf list.toList) :
    anchored? selector = none := by
  cases isAnchored : anchored? selector with
  | none => rfl
  | some found =>
      rcases List.exists_cons_of_ne_nil (replaceAnchor_ne_nil found.rest guard.toList) with
        ⟨entry, entries, alternatives⟩
      have isAlternative : entry ∈ replaceAnchor found.rest guard.toList := by
        rw [alternatives]
        exact List.mem_cons_self
      have isEntry : entry ∈ updatedSelectors (guards.map String.toList) list.toList := by
        refine List.mem_flatMap.mpr ⟨selector, member, ?_⟩
        rw [updateSelector, isAnchored]
        exact List.mem_flatMap.mpr ⟨guard.toList, List.mem_map_of_mem isGuard, isAlternative⟩
      have guarded := occursIn_trans
        (occursIn_of_isPrefix (isPrefix_of_mem_replaceAnchor isAlternative))
        (occursIn_writeList isEntry)
      rw [contains, updateAnchored, String.toList_ofList, guarded] at unguarded
      cases unguarded

/-- Without an anchored selector, updating leaves the selectors of a list. -/
theorem updatedSelectors_of_not_anchored {guards : List (List Char)} {list : List Char}
    (notAnchored : ∀ selector ∈ selectorsOf list, anchored? selector = none) :
    updatedSelectors guards list = selectorsOf list := by
  have each : ∀ selector ∈ selectorsOf list, updateSelector guards selector = [selector] := by
    intro selector member
    rw [updateSelector, notAnchored selector member]
  rw [updatedSelectors, List.flatMap_congr each, List.flatMap_singleton']

/-- Updating a list again changes nothing, unless a guard has been put in. -/
theorem updateAnchored_updateAnchored {list guard : String} {guards : List String}
    (isGuard : guard ∈ guards)
    (unguarded : contains (updateAnchored list guards) guard = false) :
    updateAnchored (updateAnchored list guards) guards = updateAnchored list guards := by
  have notAnchored : ∀ selector ∈ selectorsOf list.toList, anchored? selector = none :=
    fun _ member => anchored?_eq_none_of_updateAnchored isGuard unguarded member
  have updated : updateAnchored list guards =
      String.ofList (writeList (selectorsOf list.toList)) := by
    rw [updateAnchored, updatedSelectors_of_not_anchored notAnchored]
  have readAgain := selectorsOf_writeList_selectorsOf list.toList
  rw [updated, updateAnchored, String.toList_ofList, updatedSelectors_of_not_anchored, readAgain,
    writeList, writeList, keepFirst_keepFirst]
  intro selector member
  rw [readAgain, mem_keepFirst] at member
  exact notAnchored selector member

end ContainerPreview.Selector
