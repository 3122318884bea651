import ContainerPreview.Text.Blank
import Mathlib.Data.List.DropRight

/-!
# Trimmed texts

What trimming takes away are blanks at both ends, and a trimmed text has none
left there.
-/

namespace ContainerPreview.Text

/-- What is said of the characters of a text is decided by going over the text, not over all
characters that there are. -/
instance (priority := high) decidableForallMem (text : List Char) (P : Char → Prop)
    [DecidablePred P] : Decidable (∀ c ∈ text, P c) :=
  List.decidableBAll P text

theorem trimEnd_eq_rdropWhile (text : List Char) : trimEnd text = text.rdropWhile isBlank :=
  rfl

/-- A text is its trimmed form between blanks. -/
theorem exists_append_trim (text : List Char) :
    ∃ left right, text = left ++ trim text ++ right ∧ (∀ c ∈ left, isBlank c) ∧
      ∀ c ∈ right, isBlank c := by
  refine ⟨text.takeWhile isBlank, (trimStart text).rtakeWhile isBlank, ?_, ?_, ?_⟩
  · rw [trim, trimEnd_eq_rdropWhile, List.append_assoc, List.rdropWhile_append_rtakeWhile,
      takeWhile_append_trimStart]
  · intro c member
    exact List.mem_takeWhile_imp member
  · intro c member
    exact List.mem_rtakeWhile_imp member

/-- What is not blank is not trimmed away. -/
theorem mem_trim {text : List Char} {c : Char} (member : c ∈ text) (notBlank : isBlank c = false) :
    c ∈ trim text := by
  rcases exists_append_trim text with ⟨left, right, same, leftBlank, rightBlank⟩
  rw [same, List.mem_append, List.mem_append] at member
  rcases member with (inLeft | inside) | inRight
  · rw [leftBlank c inLeft] at notBlank
    cases notBlank
  · exact inside
  · rw [rightBlank c inRight] at notBlank
    cases notBlank

theorem rtakeWhile_trimStart {text : List Char} (notBlank : trim text ≠ []) :
    (trimStart text).rtakeWhile isBlank = text.rtakeWhile isBlank := by
  have inner : ((trimStart text).reverse.takeWhile isBlank).length ≠
      (trimStart text).reverse.length := by
    intro allBlank
    apply notBlank
    rw [trim, trimEnd_eq_rdropWhile, List.rdropWhile_eq_nil_iff]
    intro c member
    have isWhole := (List.takeWhile_prefix isBlank).eq_of_length allBlank
    exact List.mem_takeWhile_imp (isWhole ▸ List.mem_reverse.mpr member)
  have whole : text.reverse = (trimStart text).reverse ++ (text.takeWhile isBlank).reverse := by
    rw [← List.reverse_append, takeWhile_append_trimStart]
  rw [List.rtakeWhile, List.rtakeWhile, whole, List.takeWhile_append, if_neg inner]

/-- A text that is not blank is its trimmed form between the blanks that it begins and ends
with. -/
theorem blanks_append_trim {text : List Char} (notBlank : trim text ≠ []) :
    text.takeWhile isBlank ++ trim text ++ (text.reverse.takeWhile isBlank).reverse = text := by
  have atEnd : (text.reverse.takeWhile isBlank).reverse = (trimStart text).rtakeWhile isBlank :=
    (rtakeWhile_trimStart notBlank).symm
  rw [atEnd, trim, trimEnd_eq_rdropWhile, List.append_assoc, List.rdropWhile_append_rtakeWhile,
    takeWhile_append_trimStart]

theorem trimStart_trim (text : List Char) : trimStart (trim text) = trim text := by
  rw [trimStart, List.dropWhile_eq_self_iff]
  intro present
  have isPrefix : trim text <+: trimStart text := List.rdropWhile_prefix isBlank (trimStart text)
  have sameHead := isPrefix.getElem present
  rw [sameHead]
  exact List.dropWhile_get_zero_not isBlank text _

theorem trim_trim (text : List Char) : trim (trim text) = trim text := by
  rw [trim, trimStart_trim, trim, trimEnd_eq_rdropWhile, trimEnd_eq_rdropWhile,
    List.rdropWhile_idempotent]

theorem trim_cons_of_isBlank {c : Char} (blank : isBlank c) (text : List Char) :
    trim (c :: text) = trim text := by
  rw [trim, trim, trimStart, trimStart, List.dropWhile_cons_of_pos blank]

end ContainerPreview.Text
