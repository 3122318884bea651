import ContainerPreview.Proofs.Selector.Update
import ContainerPreview.Proofs.Text.Squeeze

/-!
# Anchors and what follows them

A selector is its anchor, if it has one, and what is kept of it, with blanks between them.
Every alternative under a guard is the guard and what is kept: right next to each other, if a
condition is kept first or nothing is kept, or with a space between them.
-/

namespace ContainerPreview.Selector

open Text

/-! ## Dropping an anchor -/

theorem suffix_of_dropStartFolded? {start text rest : List Char}
    (dropped : dropStartFolded? start text = some rest) : rest <:+ text := by
  rw [← drop_of_dropStartFolded? dropped]
  exact List.drop_suffix _ _

theorem suffix_trimStart (text : List Char) : trimStart text <:+ text :=
  List.dropWhile_suffix isBlank

theorem suffix_dropConditions (text : List Char) : dropConditions text <:+ text := by
  unfold dropConditions
  split
  · exact List.dropWhile_suffix _
  · exact List.suffix_refl text

theorem suffix_of_dropCombinator? {text rest : List Char}
    (dropped : dropCombinator? text = some rest) : rest <:+ text := by
  have isStart := suffix_trimStart text
  unfold dropCombinator? at dropped
  split at dropped
  · rename_i after found
    obtain rfl : trimStart after = rest := Option.some.inj dropped
    rw [found] at isStart
    exact ((suffix_trimStart after).trans (List.suffix_cons '>' after)).trans isStart
  · split at dropped
    · obtain rfl : trimStart text = rest := Option.some.inj dropped
      exact isStart
    · cases dropped

theorem suffix_of_dropHtml? {text rest : List Char} (dropped : dropHtml? text = some rest) :
    rest <:+ text := by
  obtain ⟨after, isHtml, isCombinator⟩ := Option.bind_eq_some_iff.mp dropped
  exact ((suffix_of_dropCombinator? isCombinator).trans (suffix_dropConditions after)).trans
    (suffix_of_dropStartFolded? isHtml)

theorem suffix_of_dropBody? {text rest : List Char} (dropped : dropBody? text = some rest) :
    rest <:+ text :=
  suffix_of_dropStartFolded? (Option.filter_eq_some_iff.mp dropped).1

theorem suffix_of_dropAnchor? {text rest : List Char} (dropped : dropAnchor? text = some rest) :
    rest <:+ text := by
  rcases Option.or_eq_some_iff.mp dropped with belowHtml | ⟨-, isBody⟩
  · obtain ⟨after, isHtml, isBody⟩ := Option.bind_eq_some_iff.mp belowHtml
    exact (suffix_of_dropBody? isBody).trans (suffix_of_dropHtml? isHtml)
  · exact suffix_of_dropBody? isBody

/-- An anchored selector is the anchor and the rest. -/
theorem append_of_anchored? {selector : List Char} {found : Anchored}
    (isAnchored : anchored? selector = some found) : selector = found.anchor ++ found.rest := by
  obtain ⟨rest, dropped, rfl⟩ := Option.map_eq_some_iff.mp isAnchored
  obtain ⟨front, rfl⟩ := suffix_of_dropAnchor? dropped
  simp

/-! ## What is kept of a selector -/

/-- The anchor of a selector, which is empty if it has none. -/
def anchorOf (selector : List Char) : List Char :=
  ((anchored? selector).map Anchored.anchor).getD []

/-- What is kept of a selector when its anchor is replaced. -/
def keptOf (selector : List Char) : List Char :=
  match anchored? selector with
  | some found => trim found.rest
  | none => selector

theorem notBlank_of_startsCondition {c : Char} (starts : startsCondition c) :
    isBlank c = false := by
  simp only [startsCondition, Bool.or_eq_true, beq_iff_eq] at starts
  rcases starts with ((rfl | rfl) | rfl) | rfl <;> decide

theorem isTrimmed_of_trim {text : List Char} (isTrimmed : trim text = text) : IsTrimmed text := by
  rw [← isTrimmed]
  exact isTrimmed_trim text

/-- The end of a trimmed selector is the end of what follows its anchor. -/
theorem last_rest {selector : List Char} {found : Anchored} (isTrimmed : trim selector = selector)
    (isAnchored : anchored? selector = some found) :
    ∀ c ∈ found.rest.getLast?, isBlank c = false := by
  intro c isLast
  refine (isTrimmed_of_trim isTrimmed).2 c ?_
  rw [append_of_anchored? isAnchored, List.getLast?_append, Option.mem_def.mp isLast]
  rfl

theorem trimmed_keptOf {selector : List Char} (isTrimmed : trim selector = selector) :
    trim (keptOf selector) = keptOf selector := by
  unfold keptOf
  split
  · exact trim_trim _
  · exact isTrimmed

/-- A text that ends with no blank is its trimmed form after blanks. -/
theorem exists_blanks_append_trim {text : List Char}
    (ends : ∀ c ∈ text.getLast?, isBlank c = false) :
    ∃ blanks, text = blanks ++ trim text ∧ ∀ c ∈ blanks, isBlank c := by
  obtain ⟨left, right, same, leftBlank, rightBlank⟩ := exists_append_trim text
  rcases List.eq_nil_or_concat' right with rfl | ⟨front, c, rfl⟩
  · exact ⟨left, by rwa [List.append_nil] at same, leftBlank⟩
  · have isLast : text.getLast? = some c := by
      rw [same, ← List.append_assoc, List.getLast?_concat]
    have blank := rightBlank c (by simp)
    rw [ends c isLast] at blank
    cases blank

/-- A trimmed selector is its anchor, blanks, and what is kept of it. -/
theorem exists_append_keptOf {selector : List Char} (isTrimmed : trim selector = selector) :
    ∃ blanks, selector = anchorOf selector ++ (blanks ++ keptOf selector) ∧
      ∀ c ∈ blanks, isBlank c := by
  unfold keptOf anchorOf
  cases isAnchored : anchored? selector with
  | none => exact ⟨[], rfl, List.forall_mem_nil _⟩
  | some found =>
      obtain ⟨blanks, same, areBlank⟩ := exists_blanks_append_trim (last_rest isTrimmed isAnchored)
      refine ⟨blanks, ?_, areBlank⟩
      simp only [Option.map_some, Option.getD_some]
      rw [← same]
      exact append_of_anchored? isAnchored

/-! ## Alternatives -/

/-- A guard stands right before what is kept, or with a space between them. -/
inductive Guarded (guard kept : List Char) : List Char → Prop where
  | joined : (∀ c ∈ kept.head?, startsCondition c) → Guarded guard kept (guard ++ kept)
  | below : kept ≠ [] → Guarded guard kept (guard ++ ' ' :: kept)

theorem trim_ne_nil {text : List Char} (nonempty : text ≠ [])
    (ends : ∀ c ∈ text.getLast?, isBlank c = false) : trim text ≠ [] := by
  obtain ⟨front, c, rfl⟩ := (List.eq_nil_or_concat' text).resolve_left nonempty
  have member : c ∈ trim (front ++ [c]) := mem_trim (by simp) (ends c (List.getLast?_concat ..))
  exact List.ne_nil_of_mem member

theorem guarded_of_mem_replaceAnchor {rest guard entry : List Char}
    (ends : ∀ c ∈ rest.getLast?, isBlank c = false) (member : entry ∈ replaceAnchor rest guard) :
    Guarded guard (trim rest) entry := by
  unfold replaceAnchor at member
  split at member
  · rename_i isEmpty
    obtain rfl : rest = [] := List.isEmpty_iff.mp isEmpty
    obtain rfl := List.mem_singleton.mp member
    have isJoined : Guarded entry [] (entry ++ []) := .joined (by simp)
    rwa [List.append_nil] at isJoined
  · rename_i nonempty
    have nonempty : rest ≠ [] := fun isEmpty => nonempty (List.isEmpty_iff.mpr isEmpty)
    split at member
    · rename_i starts
      obtain rfl := List.mem_singleton.mp member
      have isCondition : ∀ c ∈ rest.head?, startsCondition c := by
        obtain ⟨c, isHead, isCondition⟩ := (Option.any_eq_true ..).mp starts
        rw [isHead]
        rintro c ⟨⟩
        exact isCondition
      have isTrimmed : trim rest = rest :=
        trim_of_isTrimmed ⟨fun c isHead => notBlank_of_startsCondition (isCondition c isHead), ends⟩
      rw [isTrimmed]
      exact .joined isCondition
    · have isBelow : Guarded guard (trim rest) (guard ++ ' ' :: trim rest) :=
        .below (trim_ne_nil nonempty ends)
      dsimp only at member
      split at member
      · rename_i starts
        rcases List.mem_cons.mp member with rfl | member
        · exact isBelow
        · obtain rfl := List.mem_singleton.mp member
          obtain ⟨c, isHead, isCondition⟩ := (Option.any_eq_true ..).mp starts
          refine .joined ?_
          rw [isHead]
          rintro c ⟨⟩
          exact isCondition
      · obtain rfl := List.mem_singleton.mp member
        exact isBelow

/-- Every alternative under a guard is the guard and what is kept of the selector. -/
theorem guarded_of_mem_guardSelector {selector guard entry : List Char}
    (isTrimmed : trim selector = selector) (nonempty : selector ≠ [])
    (member : entry ∈ guardSelector selector guard) : Guarded guard (keptOf selector) entry := by
  cases isAnchored : anchored? selector with
  | some found =>
      rw [guardSelector, isAnchored] at member
      rw [keptOf, isAnchored]
      exact guarded_of_mem_replaceAnchor (last_rest isTrimmed isAnchored) member
  | none =>
      rw [guardSelector, isAnchored] at member
      rw [keptOf, isAnchored]
      obtain rfl := List.mem_singleton.mp member
      exact .below nonempty

/-- Updating keeps a selector without an anchor, and guards one with an anchor. -/
theorem mem_updateSelector {guards : List (List Char)} {selector entry : List Char}
    (member : entry ∈ updateSelector guards selector) :
    (anchored? selector = none ∧ entry = selector) ∨
      ∃ guard ∈ guards, entry ∈ guardSelector selector guard := by
  unfold updateSelector at member
  split at member
  · rename_i found isAnchored
    obtain ⟨guard, isGuard, isEntry⟩ := List.mem_flatMap.mp member
    refine .inr ⟨guard, isGuard, ?_⟩
    rw [guardSelector, isAnchored]
    exact isEntry
  · rename_i notAnchored
    exact .inl ⟨notAnchored, List.mem_singleton.mp member⟩

theorem keptOf_of_not_anchored {selector : List Char} (notAnchored : anchored? selector = none) :
    keptOf selector = selector := by
  rw [keptOf, notAnchored]

end ContainerPreview.Selector
