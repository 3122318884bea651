import ContainerPreview.Text.Case

/-!
# Looking for a text in a text

Dropping a given start, with and without regard to case, and the test whether
one text occurs in another.
-/

namespace ContainerPreview.Text

/-- What follows `start` in a text that begins with it. -/
def dropStart? : List Char → List Char → Option (List Char)
  | [], text => some text
  | _ :: _, [] => none
  | s :: start, c :: text => if s == c then dropStart? start text else none

/-- What follows `start` in a text that begins with it without regard to
case. -/
def dropStartFolded? : List Char → List Char → Option (List Char)
  | [], text => some text
  | _ :: _, [] => none
  | s :: start, c :: text => if sameLetter s c then dropStartFolded? start text else none

/-- A text that begins with `start` is `start` and the rest. -/
theorem dropStart?_eq_some_iff {start text rest : List Char} :
    dropStart? start text = some rest ↔ text = start ++ rest := by
  induction start generalizing text with
  | nil => simp [dropStart?]
  | cons s start inductionHypothesis =>
      cases text with
      | nil => simp [dropStart?]
      | cons c text =>
          by_cases same : s = c
          · simp [dropStart?, same, inductionHypothesis]
          · simp [dropStart?, same, Ne.symm same]

theorem length_of_dropStartFolded? {start text rest : List Char}
    (dropped : dropStartFolded? start text = some rest) :
    text.length = start.length + rest.length := by
  induction start generalizing text with
  | nil => simp_all [dropStartFolded?]
  | cons s start inductionHypothesis =>
      cases text with
      | nil => simp [dropStartFolded?] at dropped
      | cons c text =>
          by_cases same : sameLetter s c
          · simp only [dropStartFolded?, same, if_true] at dropped
            simp only [List.length_cons, inductionHypothesis dropped]
            omega
          · simp [dropStartFolded?, same] at dropped

/-- The rest is the text without as many characters as the start has. -/
theorem drop_of_dropStartFolded? {start text rest : List Char}
    (dropped : dropStartFolded? start text = some rest) : text.drop start.length = rest := by
  induction start generalizing text with
  | nil => simpa [dropStartFolded?] using dropped
  | cons s start inductionHypothesis =>
      cases text with
      | nil => simp [dropStartFolded?] at dropped
      | cons c text =>
          by_cases same : sameLetter s c
          · simp only [dropStartFolded?, same, if_true] at dropped
            simpa using inductionHypothesis dropped
          · simp [dropStartFolded?, same] at dropped

/-- Whether `part` stands somewhere in `text`. -/
def occursIn (part : List Char) : List Char → Bool
  | [] => part.isEmpty
  | c :: text => part.isPrefixOf (c :: text) || occursIn part text

/-- Whether `part` stands somewhere in `text`. -/
def contains (text part : String) : Bool :=
  occursIn part.toList text.toList

/-- The test `occursIn` finds exactly the parts of a text. -/
theorem occursIn_iff {part text : List Char} :
    occursIn part text = true ↔ ∃ left right, text = left ++ part ++ right := by
  induction text with
  | nil => cases part <;> simp [occursIn]
  | cons c text inductionHypothesis =>
      simp only [occursIn, Bool.or_eq_true, List.isPrefixOf_iff_prefix, inductionHypothesis]
      constructor
      · rintro (⟨right, here⟩ | ⟨left, right, later⟩)
        · exact ⟨[], right, by simp [here]⟩
        · exact ⟨c :: left, right, by simp [later]⟩
      · rintro ⟨left, right, found⟩
        cases left with
        | nil => exact Or.inl ⟨right, by simpa using found.symm⟩
        | cons l left =>
            simp only [List.cons_append, List.cons.injEq] at found
            exact Or.inr ⟨left, right, found.2⟩

theorem occursIn_iff_infix {part text : List Char} :
    occursIn part text = true ↔ part <:+: text := by
  rw [occursIn_iff]
  exact exists_congr fun left => exists_congr fun right => eq_comm

theorem contains_iff_infix {text part : String} :
    contains text part = true ↔ part.toList <:+: text.toList :=
  occursIn_iff_infix

end ContainerPreview.Text
