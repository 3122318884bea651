import ContainerPreview.Proofs.Text.Trim
import ContainerPreview.Transform.Declarations

/-!
# Conversion and keywords

Conversion changes a value only where it has a number or a call, and writes a
number or a call there.  A value that is a keyword after the conversion has
therefore not been changed by it.
-/

namespace ContainerPreview

open Text

namespace Value

/-- A character that a number or the body of a call begins with. -/
def isMark (c : Char) : Bool :=
  isSign c || isDigit c || c == '.' || c == '('

/-! ## Marks in converted values -/

theorem isMark_of_mem_unsignedLengths {c : Char} {text : List Char} {length : Nat}
    (member : length ∈ unsignedLengths (c :: text)) : isMark c := by
  by_cases digit : isDigit c = true
  · simp [isMark, digit]
  · by_cases point : c = '.'
    · simp [isMark, point]
    · have noDigits : leadingDigits (c :: text) = 0 := by simp [leadingDigits, digit]
      have noFraction : fractionDigits (c :: text) = 0 := by
        unfold fractionDigits
        split
        · simp_all
        · rfl
      simp [unsignedLengths, noDigits, noFraction, downFrom] at member

/-- A number begins with a mark. -/
theorem isMark_of_mem_numberLengths {c : Char} {text : List Char} {length : Nat}
    (member : length ∈ numberLengths (c :: text)) : isMark c := by
  by_cases sign : isSign c = true
  · simp [isMark, sign]
  · rw [numberLengths, if_neg sign] at member
    exact isMark_of_mem_unsignedLengths member

theorem exists_isMark_of_quantityAt? {units : List (List Char)} {text : List Char}
    {reading : Reading} (found : quantityAt? units text = some reading) :
    ∃ c ∈ reading.number, isMark c := by
  have member := List.mem_of_find?_eq_some found
  rcases List.mem_flatMap.mp member with ⟨length, isLength, atLength⟩
  rcases List.mem_filterMap.mp atLength with ⟨unit, -, dropped⟩
  rcases Option.map_eq_some_iff.mp dropped with ⟨rest, -, rfl⟩
  have positive := pos_of_mem_numberLengths isLength
  cases text with
  | nil => simp [numberLengths] at isLength
  | cons c text =>
      refine ⟨c, ?_, isMark_of_mem_numberLengths isLength⟩
      obtain ⟨fewer, rfl⟩ : ∃ fewer, length = fewer + 1 := ⟨length - 1, by omega⟩
      exact List.mem_cons_self

/-- Swapping units changes a text only if it leaves a number in it. -/
theorem flatMap_convertPiece (scheme : Scheme) (units : List (List Char)) (previous : Option Char)
    (text : List Char) :
    (∃ c ∈ (piecesAfter units previous text).flatMap scheme.convertPiece, isMark c) ∨
      (piecesAfter units previous text).flatMap scheme.convertPiece = text := by
  fun_induction piecesAfter units previous text with
  | case1 => exact Or.inr rfl
  | case2 previous c rest reading found inductionHypothesis =>
      obtain ⟨-, chosen⟩ := Option.ite_none_right_eq_some.mp found
      rcases exists_isMark_of_quantityAt? chosen with ⟨mark, inNumber, isMark⟩
      refine Or.inl ⟨mark, ?_, isMark⟩
      simp [Scheme.convertPiece, inNumber]
  | case3 previous c rest _ inductionHypothesis =>
      rw [List.flatMap_cons, Scheme.convertPiece]
      rcases inductionHypothesis with ⟨mark, member, isMark⟩ | same
      · exact Or.inl ⟨mark, List.mem_append_right _ member, isMark⟩
      · exact Or.inr (by rw [same]; rfl)

/-- Without sums to turn around, conversion changes a text without literals only
if it leaves a number or a call in it. -/
theorem convertCalls_eq_or {scheme : Scheme} (noSums : scheme.turnsSums = false) (whole : Bool)
    (text : List Char) :
    (∃ c ∈ scheme.convertCalls whole text, isMark c) ∨ scheme.convertCalls whole text = text := by
  rw [Scheme.convertCalls]
  split
  · have notTurned : (if whole then scheme.turnSum? text else none) = none := by
      simp [Scheme.turnSum?, noSums]
    rw [notTurned]
    exact flatMap_convertPiece scheme scheme.names none text
  · refine Or.inl ⟨'(', ?_, rfl⟩
    simp

theorem flatMap_mapFree {convert : List Char → List Char}
    (ofFree : ∀ text, (∃ c ∈ convert text, isMark c) ∨ convert text = text) (spans : List Span) :
    (∃ c ∈ spans.flatMap (Span.mapFree convert), isMark c) ∨
      spans.flatMap (Span.mapFree convert) = spans.flatMap Span.text := by
  induction spans with
  | nil => exact Or.inr rfl
  | cons span rest inductionHypothesis =>
      have ofSpan : (∃ c ∈ span.mapFree convert, isMark c) ∨ span.mapFree convert = span.text := by
        cases span with
        | free text => exact ofFree text
        | literal text => exact Or.inr rfl
      rw [List.flatMap_cons, List.flatMap_cons]
      rcases ofSpan with ⟨mark, member, isMark⟩ | same
      · exact Or.inl ⟨mark, List.mem_append_left _ member, isMark⟩
      · rcases inductionHypothesis with ⟨mark, member, isMark⟩ | sameRest
        · exact Or.inl ⟨mark, List.mem_append_right _ member, isMark⟩
        · exact Or.inr (by rw [same, sameRest])

/-- Without sums to turn around, conversion changes a value only if it leaves a
number or a call in it. -/
theorem convert_eq_or {scheme : Scheme} (noSums : scheme.turnsSums = false) (value : List Char) :
    (∃ c ∈ scheme.convert value, isMark c) ∨ scheme.convert value = value := by
  have ofSpans := flatMap_mapFree (convertCalls_eq_or noSums true) (spans value)
  rw [spans, flatMap_text_spansAfter] at ofSpans
  exact ofSpans

/-! ## Marks and letters -/

theorem toNat_of_isBlank {c : Char} (blank : isBlank c) :
    c.toNat ≤ 32 ∨ (133 ≤ c.toNat ∧ c.toNat ≤ 160) ∨ c.toNat = 0x1680 ∨
      (0x2000 ≤ c.toNat ∧ c.toNat ≤ 0x3000) := by
  simp only [isBlank, Bool.or_eq_true, Bool.and_eq_true, decide_eq_true_eq, beq_iff_eq] at blank
  omega

theorem digitZeros_bounds : ∀ start ∈ digitZeros.toList,
    0x660 ≤ start ∧ start ≠ 0x1680 ∧ (start + 10 ≤ 0x1680 ∨ 0x1680 < start) ∧
      (start + 10 ≤ 0x2000 ∨ 0x3000 < start) := by
  decide

/-- Digits stand apart from blanks and from the letters of ASCII and Latin-1. -/
theorem toNat_of_isDigit {c : Char} (digit : isDigit c) :
    (48 ≤ c.toNat ∧ c.toNat ≤ 57) ∨ (0x660 ≤ c.toNat ∧ c.toNat ≠ 0x1680 ∧
      (c.toNat < 0x2000 ∨ 0x3000 < c.toNat)) := by
  rw [isDigit, Bool.or_eq_true, Bool.and_eq_true, ← Array.any_toList, List.any_eq_true] at digit
  rcases digit with ascii | ⟨-, start, member, inScript⟩
  · simp only [Char.isDigit, Bool.and_eq_true, decide_eq_true_eq, ge_iff_le,
      UInt32.le_iff_toNat_le] at ascii
    exact Or.inl ascii
  · have bounds := digitZeros_bounds start member
    rw [Bool.and_eq_true, decide_eq_true_eq, decide_eq_true_eq] at inScript
    omega

theorem toNat_of_isMark {c : Char} (mark : isMark c) :
    isBlank c = false ∧ (c.toNat < 60 ∨ 0x660 ≤ c.toNat) := by
  simp only [isMark, isSign, Bool.or_eq_true, beq_iff_eq] at mark
  rcases mark with (((rfl | rfl) | digit) | rfl) | rfl
  · decide
  · decide
  · have ofDigit := toNat_of_isDigit digit
    constructor
    · cases blank : isBlank c with
      | false => rfl
      | true =>
          have ofBlank := toNat_of_isBlank blank
          omega
    · exact by omega
  · decide
  · decide

theorem toNat_toLower (c : Char) : c.toLower = c ∨ (65 ≤ c.toNat ∧ c.toNat ≤ 90) := by
  unfold Char.toLower
  split
  · rename_i isUpper
    exact Or.inr isUpper
  · exact Or.inl rfl

theorem keyword_bounds : ∀ letter ∈ "fixed".toList, 60 ≤ letter.toNat ∧ letter.toNat < 0x660 := by
  have spelled : "fixed".toList = ['f', 'i', 'x', 'e', 'd'] := rfl
  rw [spelled]
  simp

/-- A character whose lower-case form is made of the letters of the keyword is a
letter of ASCII or Latin-1, or the dotted capital i. -/
theorem toNat_of_lowerChar {c : Char} (letters : ∀ letter ∈ lowerChar c, letter ∈ "fixed".toList) :
    60 ≤ c.toNat ∧ c.toNat < 0x660 := by
  unfold lowerChar at letters
  split at letters
  · rename_i isDotted
    rw [beq_iff_eq] at isDotted
    rw [isDotted]
    decide
  · split at letters
    · exact absurd (letters 'k' List.mem_cons_self) (by decide)
    · split at letters
      · rename_i isCapital
        simp only [isLatinCapital, Bool.and_eq_true, decide_eq_true_eq] at isCapital
        omega
      · have isLetter := letters c.toLower List.mem_cons_self
        rcases toNat_toLower c with same | isUpper
        · rw [same] at isLetter
          exact keyword_bounds c isLetter
        · omega

/-- A value that is the keyword has no mark in it. -/
theorem not_isMark_of_lower_trim {value : List Char}
    (isKeyword : lower (trim value) = "fixed".toList) : ¬ ∃ c ∈ value, isMark c := by
  rintro ⟨c, member, mark⟩
  rcases toNat_of_isMark mark with ⟨notBlank, bounds⟩
  have letters : ∀ letter ∈ lowerChar c, letter ∈ "fixed".toList := by
    intro letter isLetter
    rw [← isKeyword]
    exact List.mem_flatMap.mpr ⟨c, mem_trim member notBlank, isLetter⟩
  have ofLetters := toNat_of_lowerChar letters
  omega

end Value

open Value

theorem turnsSums_schemeFor_position (converter : Converter) :
    (converter.schemeFor "position").turnsSums = false := by
  have ordinary : isTypographic "position" = false := by decide +kernel
  rw [Converter.schemeFor, ordinary]
  rfl

/-- Converting a position does not make it fixed. -/
theorem isFixed_of_convertDeclaration {converter : Converter} {declaration : Declaration}
    (isFixed : (converter.convertDeclaration declaration).isFixed) : declaration.isFixed := by
  rcases declaration with ⟨property, value, important⟩
  rw [Declaration.isFixed, Bool.and_eq_true] at isFixed ⊢
  rcases isFixed with ⟨isPosition, isKeyword⟩
  refine ⟨isPosition, ?_⟩
  obtain rfl : property = "position" := by
    simpa [Declaration.isPosition, Converter.convertDeclaration] using isPosition
  simp only [Declaration.isFixedValue, Converter.convertDeclaration, Converter.convertFor,
    String.toList_ofList, beq_iff_eq] at isKeyword ⊢
  rcases convert_eq_or (turnsSums_schemeFor_position converter) value.toList with marked | same
  · exact absurd marked (not_isMark_of_lower_trim isKeyword)
  · rw [same] at isKeyword
    exact isKeyword

end ContainerPreview
