import ContainerPreview.Proofs.Text.Ascii
import ContainerPreview.Proofs.Value.Keyword

/-!
# Numbers and units as they are read

A number has characters of its own, and goes on up to a character that is not one of them.  A
unit is read without regard to case.  In ASCII the letters of what is read are then, in lower
case, those of the unit; beyond it there is a letter that matches one of ASCII and is in lower
case already, so that a unit may be recognized and still have no target.
-/

namespace ContainerPreview

open Text

/-! ## Characters of ASCII -/

/-- All characters of the text are in ASCII. -/
def Text.IsAscii (text : List Char) : Prop :=
  ∀ c ∈ text, c.toNat < 128

instance (text : List Char) : Decidable (Text.IsAscii text) :=
  List.decidableBAll _ text

namespace Value

/-- A character that a number can have in it. -/
def isNumberChar (c : Char) : Bool :=
  isSign c || isDigit c || c == '.'

/-! ## Numbers before other text -/

theorem mem_downFrom {count n : Nat} : n ∈ downFrom count ↔ 0 < n ∧ n ≤ count := by
  simp only [downFrom, List.mem_map, List.mem_reverse, List.mem_range]
  constructor
  · rintro ⟨fewer, lt, rfl⟩
    omega
  · rintro ⟨positive, le⟩
    exact ⟨n - 1, by omega, by omega⟩

/-- A character that no number goes on with ends the digits before it. -/
theorem leadingDigits_append {left right : List Char}
    (ends : ∀ c ∈ right.head?, isDigit c = false) :
    leadingDigits (left ++ right) = leadingDigits left := by
  induction left with
  | nil =>
      cases right with
      | nil => rfl
      | cons c right => simp [leadingDigits, ends c rfl]
  | cons c left inductionHypothesis =>
      simp only [leadingDigits, List.cons_append, List.takeWhile_cons] at inductionHypothesis ⊢
      split
      · simpa using inductionHypothesis
      · rfl

/-- The text cannot go on a number. -/
def EndsNumber (text : List Char) : Prop :=
  ∀ c ∈ text.head?, isDigit c = false ∧ c ≠ '.'

theorem fractionDigits_append {left right : List Char} (ends : EndsNumber right) :
    fractionDigits (left ++ right) = fractionDigits left := by
  cases left with
  | nil =>
      cases right with
      | nil => rfl
      | cons c right =>
          have notPoint := (ends c rfl).2
          unfold fractionDigits
          split <;> simp_all
  | cons c left =>
      unfold fractionDigits
      split
      · rename_i isPoint
        rw [List.cons_append, List.cons.injEq] at isPoint
        obtain ⟨rfl, rfl⟩ := isPoint
        exact leadingDigits_append fun c isHead => (ends c isHead).1
      · rename_i notPoint
        split
        · rename_i isPoint
          rw [List.cons.injEq] at isPoint
          exact absurd (by rw [isPoint.1]; rfl) (notPoint (left ++ right))
        · rfl

theorem unsignedLengths_append {left right : List Char} (ends : EndsNumber right) :
    unsignedLengths (left ++ right) = unsignedLengths left := by
  have sameWhole : leadingDigits (left ++ right) = leadingDigits left :=
    leadingDigits_append fun c isHead => (ends c isHead).1
  have within : leadingDigits left ≤ left.length := (List.takeWhile_sublist _).length_le
  simp only [unsignedLengths, sameWhole, List.drop_append_of_le_length within,
    fractionDigits_append ends]

theorem numberLengths_append {c : Char} {left right : List Char} (ends : EndsNumber right) :
    numberLengths (c :: (left ++ right)) = numberLengths (c :: left) := by
  rw [numberLengths, numberLengths, unsignedLengths_append ends, ← List.cons_append,
    unsignedLengths_append ends]

theorem le_length_of_mem_unsignedLengths {text : List Char} {n : Nat}
    (member : n ∈ unsignedLengths text) : n ≤ text.length := by
  have whole : leadingDigits text ≤ text.length := (List.takeWhile_sublist _).length_le
  have fraction : ∀ rest : List Char, fractionDigits rest = 0 ∨
      fractionDigits rest + 1 ≤ rest.length := by
    intro rest
    unfold fractionDigits
    split
    · exact .inr (Nat.succ_le_succ (List.takeWhile_sublist _).length_le)
    · exact .inl rfl
  have ofRest := fraction (text.drop (leadingDigits text))
  rw [List.length_drop] at ofRest
  simp only [unsignedLengths, List.mem_append, List.mem_map, mem_downFrom] at member
  rcases member with ⟨digits, ⟨positive, le⟩, rfl⟩ | ⟨positive, le⟩
  · omega
  · omega

theorem le_length_of_mem_numberLengths {text : List Char} {n : Nat}
    (member : n ∈ numberLengths text) : n ≤ text.length := by
  cases text with
  | nil => cases member
  | cons c text =>
      rw [numberLengths] at member
      split at member
      · obtain ⟨fewer, isFewer, rfl⟩ := List.mem_map.mp member
        exact Nat.succ_le_succ (le_length_of_mem_unsignedLengths isFewer)
      · exact le_length_of_mem_unsignedLengths member

/-! ## Quantities and starts -/

theorem isSome_quantityAt?_iff {units : List (List Char)} {text : List Char} :
    (quantityAt? units text).isSome ↔ ∃ length ∈ numberLengths text, ∃ unit ∈ units, ∃ rest,
      dropStartFolded? unit (text.drop length) = some rest ∧ nameEnds rest := by
  rw [quantityAt?, List.find?_isSome]
  constructor
  · rintro ⟨reading, member, ends⟩
    obtain ⟨length, isLength, atLength⟩ := List.mem_flatMap.mp member
    obtain ⟨unit, isUnit, found⟩ := List.mem_filterMap.mp atLength
    obtain ⟨rest, dropped, rfl⟩ := Option.map_eq_some_iff.mp found
    exact ⟨length, isLength, unit, isUnit, rest, dropped, ends⟩
  · rintro ⟨length, isLength, unit, isUnit, rest, dropped, ends⟩
    refine ⟨_, List.mem_flatMap.mpr ⟨length, isLength, List.mem_filterMap.mpr
      ⟨unit, isUnit, Option.map_eq_some_iff.mpr ⟨rest, dropped, rfl⟩⟩⟩, ends⟩

theorem dropStartFolded?_append {start text rest : List Char}
    (dropped : dropStartFolded? start text = some rest) (right : List Char) :
    dropStartFolded? start (text ++ right) = some (rest ++ right) := by
  induction start generalizing text with
  | nil => simp_all [dropStartFolded?]
  | cons s start inductionHypothesis =>
      cases text with
      | nil => cases dropped
      | cons c text =>
          simp only [dropStartFolded?, List.cons_append] at dropped ⊢
          split at dropped
          · rename_i same
            rw [if_pos same]
            exact inductionHypothesis dropped
          · cases dropped

theorem exists_of_dropStartFolded?_cons {s : Char} {start text rest : List Char}
    (dropped : dropStartFolded? (s :: start) text = some rest) :
    ∃ c text', text = c :: text' ∧ sameLetter s c ∧ dropStartFolded? start text' = some rest := by
  cases text with
  | nil => cases dropped
  | cons c text =>
      rw [dropStartFolded?] at dropped
      split at dropped
      · rename_i same
        exact ⟨c, text, rfl, same, dropped⟩
      · cases dropped

/-- A text that begins with `start` without regard to case, and goes on in whatever way. -/
theorem exists_of_dropStartFolded? {start text rest : List Char}
    (dropped : dropStartFolded? start text = some rest) :
    ∃ head, text = head ++ rest ∧ head.length = start.length ∧
      ∀ right, dropStartFolded? start (head ++ right) = some right := by
  induction start generalizing text with
  | nil =>
      cases dropped
      exact ⟨[], rfl, rfl, fun right => rfl⟩
  | cons s start inductionHypothesis =>
      obtain ⟨c, text, rfl, same, dropped⟩ := exists_of_dropStartFolded?_cons dropped
      obtain ⟨head, rfl, sameLength, ofHead⟩ := inductionHypothesis dropped
      refine ⟨c :: head, rfl, by simp [sameLength], fun right => ?_⟩
      rw [List.cons_append, dropStartFolded?, if_pos same, ofHead right]

/-! ## Texts that no quantity starts -/

theorem unsignedLengths_eq_nil {c : Char} {text : List Char} (notDigit : isDigit c = false)
    (notPoint : c ≠ '.') : unsignedLengths (c :: text) = [] := by
  have noFraction : fractionDigits (c :: text) = 0 := by
    unfold fractionDigits
    split
    · simp_all
    · rfl
  simp [unsignedLengths, leadingDigits, notDigit, noFraction, downFrom]

theorem numberLengths_of_not_isNumberChar {c : Char} {text : List Char}
    (notNumber : isNumberChar c = false) : numberLengths (c :: text) = [] := by
  simp only [isNumberChar, Bool.or_eq_false_iff, beq_eq_false_iff_ne] at notNumber
  obtain ⟨⟨notSign, notDigit⟩, notPoint⟩ := notNumber
  rw [numberLengths, notSign, unsignedLengths_eq_nil notDigit notPoint]
  rfl

/-- A number has only characters of a number. -/
theorem le_length_takeWhile_of_mem_numberLengths {text : List Char} {length : Nat}
    (member : length ∈ numberLengths text) :
    length ≤ (text.takeWhile isNumberChar).length := by
  cases text with
  | nil => cases member
  | cons c text =>
      cases isNumber : isNumberChar c with
      | false => simp [numberLengths_of_not_isNumberChar isNumber] at member
      | true =>
          have same : c :: text =
              c :: (text.takeWhile isNumberChar ++ text.dropWhile isNumberChar) := by
            rw [List.takeWhile_append_dropWhile]
          have ends : EndsNumber (text.dropWhile isNumberChar) := by
            intro d isHead
            have notNumber := List.head?_dropWhile_not isNumberChar text
            rw [isHead] at notNumber
            simp only [isNumberChar, Bool.or_eq_false_iff, beq_eq_false_iff_ne] at notNumber
            exact ⟨notNumber.1.2, notNumber.2⟩
          rw [same, numberLengths_append ends] at member
          rw [List.takeWhile_cons_of_pos isNumber]
          exact le_length_of_mem_numberLengths member

theorem quantityAt?_of_not_isNumberChar {units : List (List Char)} {c : Char} {text : List Char}
    (notNumber : isNumberChar c = false) : quantityAt? units (c :: text) = none := by
  rw [← Option.not_isSome_iff_eq_none, isSome_quantityAt?_iff]
  rintro ⟨length, isLength, -⟩
  rw [numberLengths_of_not_isNumberChar notNumber] at isLength
  cases isLength

/-! ## Letters -/

theorem toNat_of_isAlpha {c : Char} (isAlpha : c.isAlpha) : c.toNat < 128 := by
  rcases Bool.or_eq_true_iff.mp isAlpha with isUpper | isLower
  · have atMost : c.val ≤ 'Z'.val := (of_decide_eq_true isUpper).2
    exact Nat.lt_of_le_of_lt (UInt32.le_iff_toNat_le.mp atMost) (by decide)
  · have atMost : c.val ≤ 'z'.val := of_decide_eq_true (Bool.and_eq_true_iff.mp isLower).2
    exact Nat.lt_of_le_of_lt (UInt32.le_iff_toNat_le.mp atMost) (by decide)

theorem isAlpha_of_isLower {c : Char} (isLower : c.isLower) : c.isAlpha :=
  Bool.or_eq_true_iff.mpr (Or.inr isLower)

/-- A letter goes on a name and is in no number. -/
theorem class_of_isAlpha {c : Char} (isAlpha : c.isAlpha) :
    isNameChar c ∧ isNumberChar c = false :=
  forall_ascii (fun c => c.isAlpha → isNameChar c ∧ isNumberChar c = false) (by decide)
    (toNat_of_isAlpha isAlpha) isAlpha

/-! ## Characters of a number -/

theorem isNumberChar_of_isBlank {c : Char} (blank : isBlank c) : isNumberChar c = false := by
  cases isNumber : isNumberChar c with
  | false => rfl
  | true =>
      have mark : isMark c := by
        rw [isNumberChar] at isNumber
        rw [isMark, isNumber, Bool.true_or]
      rw [(toNat_of_isMark mark).1] at blank
      cases blank

end Value

end ContainerPreview
