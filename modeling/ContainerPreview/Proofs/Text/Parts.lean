import ContainerPreview.Proofs.Text.Closed
import ContainerPreview.Proofs.Text.Group

/-!
# Splitting and joining

Splitting a text and joining its parts are inverse to each other.  Joined by the separator, the
parts are the text, whatever the separator.  The other way round, joined parts are split again if
the separator can split at all, which a quote and an opener cannot, and if every part is whole and
each but the last is balanced.  So a text has no other such parts than those it is split into.
-/

namespace ContainerPreview.Text

variable {separator : Char} {text part : List Char} {parts : List (List Char)}

/-! ## Whole parts -/

/-- A text is whole if splitting leaves it in one part. -/
theorem splitTopLevel_eq_singleton_iff :
    splitTopLevel separator text = [text] ↔ isWhole separator text := by
  constructor
  · intro inOne
    exact isWhole_of_mem_splitTopLevel (inOne ▸ List.mem_singleton_self text)
  · exact splitFrom_of_passes

/-- The characters that begin a quote or a group, and so never split. -/
def beginners : List Char :=
  ['\'', '"', '(', '[']

theorem closerOf?_eq_none_of_not_mem (mayPart : separator ∉ beginners) :
    closerOf? separator = none := by
  simp only [beginners, List.mem_cons, List.not_mem_nil, or_false, not_or] at mayPart
  obtain ⟨-, -, notOpening, notBracket⟩ := mayPart
  simp [closerOf?, notOpening, notBracket]

/-- Every other character splits where nothing is open. -/
theorem splitsAt_start (mayPart : separator ∉ beginners) :
    Scan.start.splitsAt separator separator = true := by
  have noOpener := closerOf?_eq_none_of_not_mem mayPart
  simp only [beginners, List.mem_cons, List.not_mem_nil, or_false, not_or] at mayPart
  obtain ⟨notSingle, notDouble, -, -⟩ := mayPart
  simp [Scan.splitsAt, Scan.isPlain, Scan.start, notSingle, notDouble, noOpener]

/-! ## Joined parts -/

/-- Something that holds of every entry that another one follows holds of all but the last. -/
theorem pairwise_left_iff {α : Type} {P : α → Prop} {entries : List α} :
    (entries.Pairwise fun entry _ => P entry) ↔ ∀ entry ∈ entries.dropLast, P entry := by
  induction entries with
  | nil => simp
  | cons entry entries inductionHypothesis =>
      cases entries with
      | nil => simp
      | cons next entries =>
          have isFollowed : (∀ later ∈ next :: entries, P entry) ↔ P entry :=
            ⟨fun holds => holds next List.mem_cons_self, fun holds _ _ => holds⟩
          rw [List.pairwise_cons, isFollowed, inductionHypothesis, List.dropLast_cons_cons,
            List.forall_mem_cons]

/-- Whole parts, each but the last balanced, are split again after they have been joined. -/
theorem splitTopLevel_join (mayPart : separator ∉ beginners) (nonempty : parts ≠ [])
    (whole : ∀ part ∈ parts, isWhole separator part)
    (balanced : parts.Pairwise fun part _ => Balanced part) :
    splitTopLevel separator ([separator].intercalate parts) = parts := by
  induction parts with
  | nil => exact absurd rfl nonempty
  | cons part parts inductionHypothesis =>
      obtain ⟨partWhole, laterWhole⟩ := List.forall_mem_cons.mp whole
      obtain ⟨partBalanced, laterBalanced⟩ := List.pairwise_cons.mp balanced
      cases parts with
      | nil =>
          rw [List.intercalate_singleton]
          exact splitTopLevel_eq_singleton_iff.mpr partWhole
      | cons later parts =>
          have closed : Scan.start.after part = Scan.start :=
            partBalanced later List.mem_cons_self
          have splits : (Scan.start.after part).splitsAt separator separator = true := by
            rw [closed]
            exact splitsAt_start mayPart
          have ofLater :=
            inductionHypothesis (List.cons_ne_nil later parts) laterWhole laterBalanced
          rw [splitTopLevel] at ofLater
          rw [List.intercalate_cons_cons, List.append_assoc, List.singleton_append, splitTopLevel,
            splitFrom_append partWhole splits, closed, ofLater]

/-- The parts of a text are the only whole parts, each but the last balanced, that it is joined
from. -/
theorem splitTopLevel_eq_iff (mayPart : separator ∉ beginners) :
    splitTopLevel separator text = parts ↔
      parts ≠ [] ∧ [separator].intercalate parts = text ∧
        (∀ part ∈ parts, isWhole separator part) ∧
          parts.Pairwise fun part _ => Balanced part := by
  constructor
  · rintro rfl
    exact ⟨splitFrom_ne_nil separator Scan.start text,
      intercalate_splitFrom separator Scan.start text,
      fun _ member => isWhole_of_mem_splitTopLevel member,
      pairwise_balanced_splitTopLevel separator text⟩
  · rintro ⟨nonempty, rfl, whole, balanced⟩
    exact splitTopLevel_join mayPart nonempty whole balanced

/-- Joining the parts of a text with the separator gives the text back, and no part is split
again.  Parts that are not split, each but the last of which leaves no quote, group or escape
open, are given back after they have been joined, unless the separator begins a quote or a
group. -/
theorem splitTopLevel_inverts (separator : Char) :
    (∀ text, [separator].intercalate (splitTopLevel separator text) = text ∧
      ∀ part ∈ splitTopLevel separator text, splitTopLevel separator part = [part]) ∧
    (separator ∉ beginners → ∀ parts ≠ [],
      (∀ part ∈ parts, splitTopLevel separator part = [part]) →
        (∀ part ∈ parts.dropLast, Balanced part) →
          splitTopLevel separator ([separator].intercalate parts) = parts) := by
  refine ⟨fun text => ⟨intercalate_splitFrom separator Scan.start text, fun part member => ?_⟩,
    fun mayPart parts nonempty inOne balanced => ?_⟩
  · exact splitTopLevel_eq_singleton_iff.mpr (isWhole_of_mem_splitTopLevel member)
  · have whole : ∀ part ∈ parts, isWhole separator part := fun part member =>
      splitTopLevel_eq_singleton_iff.mp (inOne part member)
    exact (splitTopLevel_eq_iff mayPart).mpr
      ⟨nonempty, rfl, whole, pairwise_left_iff.mpr balanced⟩

/-- The separator stands in a group, in a quote after an escaped quote, and in a group that the
last part leaves open.  A closer that nothing waits for is plain text. -/
theorem splitTopLevel_inverts_openEnd :
    let parts := ["a(b,[c],d)".toList, "\"e\\\",\"]".toList, [], "f[g,".toList]
    ',' ∉ beginners ∧ (∀ part ∈ parts, splitTopLevel ',' part = [part]) ∧
      (∀ part ∈ parts.dropLast, Balanced part) ∧
        splitTopLevel ',' "a(b,[c],d),\"e\\\",\"],,f[g,".toList = parts := by
  intro parts
  have mayPart : ',' ∉ beginners := by decide
  have inOne : ∀ part ∈ parts, splitTopLevel ',' part = [part] := by decide
  have balanced : ∀ part ∈ parts.dropLast, Balanced part := by decide
  refine ⟨mayPart, inOne, balanced, ?_⟩
  exact (splitTopLevel_inverts ',').2 mayPart parts (by decide) inOne balanced

end ContainerPreview.Text
