import ContainerPreview.Proofs.Selector.Anchor
import ContainerPreview.Proofs.Text.Closed

/-!
# Closed selector lists

Guarding and updating keep a list of closed selectors closed, and splitting what is written
gives the alternatives back, if no anchor ends inside a group or a string.  The element `html`
takes everything up to the next blank or combinator as a condition, so where a string or a
group holds a blank and `body` after it, the selector is cut there.
-/

namespace ContainerPreview.Selector

open Text

/-- A text that stands for one selector of a list: closed, trimmed, not empty, and without a
comma at its top level. -/
structure StandsAlone (text : List Char) : Prop where
  closed : Closed text
  isTrimmed : trim text = text
  nonempty : text ≠ []
  isWhole : isWhole ',' text

instance (text : List Char) : Decidable (StandsAlone text) :=
  decidable_of_iff (Closed text ∧ trim text = text ∧ text ≠ [] ∧ Text.isWhole ',' text)
    ⟨fun ⟨closed, isTrimmed, nonempty, isWhole⟩ => ⟨closed, isTrimmed, nonempty, isWhole⟩,
      fun ⟨closed, isTrimmed, nonempty, isWhole⟩ => ⟨closed, isTrimmed, nonempty, isWhole⟩⟩

/-- The alternatives are closed, and the written list is split into them again: in order, and
each of them once. -/
structure KeepsApart (alternatives : List (List Char)) (written : String) : Prop where
  closed : ∀ alternative ∈ alternatives, Closed alternative
  selectors : selectorsOf written.toList = keepFirst alternatives
  split : alternatives ≠ [] →
    (splitTopLevel ',' written.toList).map trim = keepFirst alternatives
  nodup : (selectorsOf written.toList).Nodup

/-! ## One alternative -/

theorem IsTrimmed.append {left right : List Char} (isLeft : IsTrimmed left)
    (isRight : IsTrimmed right) (leftNonempty : left ≠ []) (rightNonempty : right ≠ [])
    (between : List Char) : IsTrimmed (left ++ (between ++ right)) := by
  constructor
  · rw [List.head?_append_of_ne_nil left leftNonempty]
    exact isLeft.1
  · rw [← List.append_assoc, List.getLast?_append_of_ne_nil _ rightNonempty]
    exact isRight.2

/-- What stands alone behind a guard that stands alone does so with the guard. -/
theorem StandsAlone.guarded {guard kept entry : List Char} (isGuard : StandsAlone guard)
    (closed : Closed kept) (isWhole : Text.isWhole ',' kept) (isTrimmed : trim kept = kept)
    (guarded : Guarded guard kept entry) : StandsAlone entry := by
  have trimmed : ∀ between, kept ≠ [] → trim (guard ++ (between ++ kept)) =
      guard ++ (between ++ kept) := fun between nonempty =>
    trim_of_isTrimmed (IsTrimmed.append (isTrimmed_of_trim isGuard.isTrimmed)
      (isTrimmed_of_trim isTrimmed) isGuard.nonempty nonempty between)
  cases guarded with
  | joined =>
      refine ⟨isGuard.closed.append closed, ?_, by simp [isGuard.nonempty], ?_⟩
      · by_cases isEmpty : kept = []
        · rw [isEmpty, List.append_nil, isGuard.isTrimmed]
        · exact trimmed [] isEmpty
      · rw [isWhole_append isGuard.closed.1, isGuard.isWhole, isWhole]
        rfl
  | below nonempty =>
      have isSpace : ∀ c ∈ [' '], isBlank c := by decide
      have behind : Closed (' ' :: kept) := (Closed.blanks isSpace).append closed
      refine ⟨isGuard.closed.append behind, trimmed [' '] nonempty, by simp, ?_⟩
      rw [isWhole_append isGuard.closed.1, isGuard.isWhole, ← List.singleton_append,
        isWhole_append (Scan.after_blanks isSpace), isWhole_blanks isSpace, isWhole]
      rfl

/-! ## Alternatives of a list -/

variable {list : String} {guards : List String} {selector entry : List Char}

theorem closed_of_mem_selectorsOf
    (areClosed : ∀ part ∈ splitTopLevel ',' list.toList, Closed part)
    (member : selector ∈ selectorsOf list.toList) : Closed selector := by
  simp only [selectorsOf, List.mem_filter, List.mem_map] at member
  obtain ⟨⟨part, isPart, rfl⟩, -⟩ := member
  exact (areClosed part isPart).trim

/-- What is kept of a selector is closed and a single selector, if the anchor is balanced. -/
theorem closed_keptOf (closed : Closed selector) (isWhole : Text.isWhole ',' selector)
    (isTrimmed : trim selector = selector) (anchored : Balanced (anchorOf selector)) :
    Closed (keptOf selector) ∧ Text.isWhole ',' (keptOf selector) := by
  obtain ⟨blanks, same, areBlank⟩ := exists_append_keptOf isTrimmed
  have behind : Balanced (anchorOf selector ++ blanks) :=
    anchored.append (Scan.after_blanks areBlank)
  rw [← List.append_assoc] at same
  rw [same] at closed isWhole
  rw [isWhole_append behind, Bool.and_eq_true] at isWhole
  exact ⟨closed.of_append behind, isWhole.2⟩

theorem standsAlone_of_mem_guardSelector {guard : List Char} (isGuard : StandsAlone guard)
    (areClosed : ∀ part ∈ splitTopLevel ',' list.toList, Closed part)
    (member : selector ∈ selectorsOf list.toList) (anchored : Balanced (anchorOf selector))
    (isEntry : entry ∈ guardSelector selector guard) : StandsAlone entry := by
  obtain ⟨isWhole, isTrimmed, nonempty⟩ := mem_selectorsOf member
  obtain ⟨keptClosed, keptWhole⟩ :=
    closed_keptOf (closed_of_mem_selectorsOf areClosed member) isWhole isTrimmed anchored
  exact isGuard.guarded keptClosed keptWhole (trimmed_keptOf isTrimmed)
    (guarded_of_mem_guardSelector isTrimmed nonempty isEntry)

/-- Alternatives that stay as they are when they are split and trimmed are given back by the
written list. -/
theorem keepsApart_of_standsAlone {alternatives : List (List Char)}
    (standAlone : ∀ alternative ∈ alternatives, StandsAlone alternative) :
    KeepsApart alternatives (String.ofList (writeList alternatives)) := by
  have ofFirst : ∀ alternative ∈ keepFirst alternatives, StandsAlone alternative :=
    fun alternative member => standAlone alternative (mem_keepFirst.mp member)
  have balanced : (keepFirst alternatives).Pairwise fun alternative _ => Balanced alternative :=
    List.pairwise_of_forall_mem_list fun alternative member _ _ =>
      (ofFirst alternative member).closed.1
  have selectors : selectorsOf (writeList alternatives) = keepFirst alternatives :=
    selectorsOf_intercalate (fun alternative member =>
      ⟨(ofFirst alternative member).isWhole, (ofFirst alternative member).isTrimmed,
        (ofFirst alternative member).nonempty⟩) balanced
  refine ⟨fun alternative member => (standAlone alternative member).closed, ?_, ?_, ?_⟩
  · rw [String.toList_ofList, selectors]
  · intro nonempty
    rw [String.toList_ofList, writeList]
    obtain ⟨first, others, isList⟩ : ∃ first others, keepFirst alternatives = first :: others := by
      obtain ⟨first, others, rfl⟩ := List.exists_cons_of_ne_nil nonempty
      exact ⟨_, _, rfl⟩
    rw [isList] at balanced ofFirst ⊢
    rw [splitTopLevel_intercalate (fun each member => (ofFirst each member).isWhole) balanced,
      List.map_cons, (ofFirst first List.mem_cons_self).isTrimmed, List.map_map]
    congr 1
    conv_rhs => rw [← List.map_id' others]
    refine List.map_congr_left fun alternative member => ?_
    rw [Function.comp_apply, trim_cons_of_isBlank (by decide)]
    exact (ofFirst alternative (List.mem_cons_of_mem _ member)).isTrimmed
  · rw [String.toList_ofList, selectors]
    exact nodup_keepFirst alternatives

/-! ## Whole lists -/

/-- Guarding and updating keep selector lists closed: every alternative is closed, splitting
the written list gives back the alternatives, and every alternative of a guarded list begins
with a guard.  This is so if no anchor ends inside a group or a string. -/
theorem guarding_keepsApart
    (areClosed : ∀ part ∈ splitTopLevel ',' list.toList, Closed part)
    (areGuards : ∀ guard ∈ guards, StandsAlone guard.toList)
    (anchored : ∀ selector ∈ selectorsOf list.toList, Balanced (anchorOf selector)) :
    KeepsApart (guardedSelectors (guards.map String.toList) list.toList) (addGuard list guards) ∧
      KeepsApart (updatedSelectors (guards.map String.toList) list.toList)
        (updateAnchored list guards) ∧
      ∀ alternative ∈ guardedSelectors (guards.map String.toList) list.toList,
        ∃ guard ∈ guards, guard.toList <+: alternative := by
  have isGuard : ∀ guard ∈ guards.map String.toList, StandsAlone guard := fun guard member => by
    obtain ⟨text, isText, rfl⟩ := List.mem_map.mp member
    exact areGuards text isText
  have ofGuard : ∀ {selector guard entry}, selector ∈ selectorsOf list.toList →
      guard ∈ guards.map String.toList → entry ∈ guardSelector selector guard →
      StandsAlone entry := fun member isMember isEntry =>
    standsAlone_of_mem_guardSelector (isGuard _ isMember) areClosed member (anchored _ member)
      isEntry
  refine ⟨keepsApart_of_standsAlone ?_, keepsApart_of_standsAlone ?_, ?_⟩
  · intro alternative member
    obtain ⟨selector, isSelector, member⟩ := List.mem_flatMap.mp member
    obtain ⟨guard, isMember, isEntry⟩ := List.mem_flatMap.mp member
    exact ofGuard isSelector isMember isEntry
  · intro alternative member
    obtain ⟨selector, isSelector, member⟩ := List.mem_flatMap.mp member
    rcases mem_updateSelector member with ⟨-, rfl⟩ | ⟨guard, isMember, isEntry⟩
    · obtain ⟨isWhole, isTrimmed, nonempty⟩ := mem_selectorsOf isSelector
      exact ⟨closed_of_mem_selectorsOf areClosed isSelector, isTrimmed, nonempty, isWhole⟩
    · exact ofGuard isSelector isMember isEntry
  · intro alternative member
    obtain ⟨selector, -, member⟩ := List.mem_flatMap.mp member
    obtain ⟨guard, isMember, isEntry⟩ := List.mem_flatMap.mp member
    obtain ⟨text, isText, rfl⟩ := List.mem_map.mp isMember
    exact ⟨text, isText, isPrefix_of_mem_guardSelector isEntry⟩

/-- Groups and strings with commas and with `body` in them, under both guards. -/
theorem guarding_keepsApart_groups :
    let list := "html.dark > body[title=\"a, b\"] .x, :is(.a, body .b) p, body .c, body.c"
    let guards := ["body:not([data-breakpoint-preview-mode])", "body[data-breakpoint-preview-mode]"]
    ((∀ part ∈ splitTopLevel ',' list.toList, Closed part) ∧
      (∀ guard ∈ guards, StandsAlone guard.toList) ∧
      ∀ selector ∈ selectorsOf list.toList, Balanced (anchorOf selector)) ∧
    KeepsApart (guardedSelectors (guards.map String.toList) list.toList) (addGuard list guards) ∧
    KeepsApart (updatedSelectors (guards.map String.toList) list.toList)
      (updateAnchored list guards) ∧
    ∀ alternative ∈ guardedSelectors (guards.map String.toList) list.toList,
      ∃ guard ∈ guards, guard.toList <+: alternative := by
  have areClosed : ∀ part ∈ splitTopLevel ','
      "html.dark > body[title=\"a, b\"] .x, :is(.a, body .b) p, body .c, body.c".toList,
      Closed part := by decide +kernel
  have areGuards : ∀ guard ∈ ["body:not([data-breakpoint-preview-mode])",
      "body[data-breakpoint-preview-mode]"], StandsAlone guard.toList := by decide +kernel
  have anchored : ∀ selector ∈ selectorsOf
      "html.dark > body[title=\"a, b\"] .x, :is(.a, body .b) p, body .c, body.c".toList,
      Balanced (anchorOf selector) := by decide +kernel
  exact ⟨⟨areClosed, areGuards, anchored⟩, guarding_keepsApart areClosed areGuards anchored⟩

/-- A string on `html` with `body` between its blanks is cut in the middle. -/
theorem not_guarding_keepsApart :
    ¬ ∀ (list : String) (guards : List String),
      (∀ part ∈ splitTopLevel ',' list.toList, Closed part) →
      (∀ guard ∈ guards, StandsAlone guard.toList) →
      ∀ alternative ∈ guardedSelectors (guards.map String.toList) list.toList,
        Closed alternative := by
  intro closed
  exact absurd (closed "html[title=\" body \"] .b" ["body[data-breakpoint-preview-mode]"]
    (by decide +kernel) (by decide +kernel)
    "body[data-breakpoint-preview-mode] \"] .b".toList (by decide +kernel)) (by decide +kernel)

end ContainerPreview.Selector
