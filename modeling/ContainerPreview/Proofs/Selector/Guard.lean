import ContainerPreview.Selector.Guard

/-!
# Guards in guarded selector lists

Every alternative that guarding gives begins with the guard.  A guarded list
therefore contains its guard, unless the list names no element at all; then
nothing is left of it.
-/

namespace ContainerPreview.Selector

open Text

/-! ## Alternatives under a guard -/

theorem replaceAnchor_ne_nil (rest guard : List Char) : replaceAnchor rest guard ≠ [] := by
  unfold replaceAnchor
  split
  · simp
  · split
    · simp
    · dsimp only
      split <;> simp

/-- What takes the place of an anchor begins with the guard. -/
theorem isPrefix_of_mem_replaceAnchor {rest guard entry : List Char}
    (member : entry ∈ replaceAnchor rest guard) : guard <+: entry := by
  unfold replaceAnchor at member
  split at member
  · rw [List.mem_singleton] at member
    exact member ▸ List.prefix_refl guard
  · split at member
    · rw [List.mem_singleton] at member
      rw [member]
      exact List.prefix_append guard rest
    · dsimp only at member
      split at member
      · rw [List.mem_cons, List.mem_singleton] at member
        rcases member with rfl | rfl
        · exact List.prefix_append guard _
        · exact List.prefix_append guard _
      · rw [List.mem_singleton] at member
        rw [member]
        exact List.prefix_append guard _

theorem guardSelector_ne_nil (selector guard : List Char) : guardSelector selector guard ≠ [] := by
  unfold guardSelector
  split
  · exact replaceAnchor_ne_nil _ guard
  · simp

theorem isPrefix_of_mem_guardSelector {selector guard entry : List Char}
    (member : entry ∈ guardSelector selector guard) : guard <+: entry := by
  unfold guardSelector at member
  split at member
  · exact isPrefix_of_mem_replaceAnchor member
  · rw [List.mem_singleton] at member
    rw [member]
    exact List.prefix_append guard _

/-! ## Written lists -/

@[simp]
theorem writeList_nil : writeList [] = [] :=
  rfl

/-- A list begins with its first entry. -/
theorem isPrefix_writeList_cons (entry : List Char) (entries : List (List Char)) :
    entry <+: writeList (entry :: entries) := by
  rw [writeList, keepFirst]
  cases (keepFirst entries).filter (· != entry) with
  | nil => simp
  | cons second others =>
      rw [List.intercalate_cons_cons, List.append_assoc]
      exact List.prefix_append _ _

theorem occursIn_of_isPrefix {part text : List Char} (begins : part <+: text) :
    occursIn part text = true := by
  rcases begins with ⟨rest, rfl⟩
  exact occursIn_iff.mpr ⟨[], rest, by simp⟩

/-! ## Guarded lists -/

theorem guardedSelectors_eq_nil {guards : List (List Char)} {list : List Char}
    (blank : selectorsOf list = []) : guardedSelectors guards list = [] := by
  rw [guardedSelectors, blank, List.flatMap_nil]

/-- A list with a selector in it contains the guard once it is guarded. -/
theorem contains_addGuard {list guard : String} (names : selectorsOf list.toList ≠ []) :
    contains (addGuard list [guard]) guard = true := by
  rcases List.exists_cons_of_ne_nil names with ⟨selector, selectors, split⟩
  rcases List.exists_cons_of_ne_nil (guardSelector_ne_nil selector guard.toList) with
    ⟨entry, entries, alternatives⟩
  have member : entry ∈ guardSelector selector guard.toList := by
    rw [alternatives]
    exact List.mem_cons_self
  have begins : guard.toList <+: entry := isPrefix_of_mem_guardSelector member
  have isList : guardedSelectors [guard.toList] list.toList =
      entry :: (entries ++ selectors.flatMap fun selector =>
        guardSelector selector guard.toList) := by
    simp [guardedSelectors, split, alternatives]
  rw [contains, addGuard, String.toList_ofList, List.map_singleton, isList]
  exact occursIn_of_isPrefix (begins.trans (isPrefix_writeList_cons entry _))

/-- Nothing is left of a list without a selector once it is guarded. -/
theorem addGuard_of_blank {list : String} (guards : List String)
    (blank : selectorsOf list.toList = []) : addGuard list guards = "" := by
  rw [addGuard, guardedSelectors_eq_nil blank, writeList_nil, String.ofList_nil]

theorem addGuard_empty (guards : List String) : addGuard "" guards = "" :=
  addGuard_of_blank guards rfl

end ContainerPreview.Selector
