import ContainerPreview.Proofs.Value.Reading

/-!
# Cutting a text between quantities

A quantity ends with a letter and goes on neither over a parenthesis, a comma or a blank nor
from something else into a letter.  So a text can be cut before and after such separators, and
before a name that nothing of a name stands in front of: the quantities of the parts are those
of the whole.

This holds for all characters, whatever their script, as long as the units are made of letters
of ASCII.
-/

namespace ContainerPreview

open Text

namespace Value

/-! ## Word characters beyond ASCII -/

/-- How many bounds of the ranges of word characters are not beyond a code. -/
def boundsUpTo (code : Nat) : Nat :=
  wordBounds.toList.countP (Nat.ble · code)

theorem isWordChar_iff {c : Char} (beyond : 128 ≤ c.toNat) :
    isWordChar c ↔ boundsUpTo c.toNat % 2 = 1 := by
  have sameTest : (fun bound : Nat => decide (bound ≤ c.toNat)) = (Nat.ble · c.toNat) :=
    funext fun bound => Bool.eq_iff_iff.mpr (by simp)
  rw [isWordChar, if_neg (Nat.not_lt.mpr beyond), beq_iff_eq, boundsUpTo, sameTest,
    Array.countP_toList, Array.countP_eq_size_filter]

theorem ascending_wordBounds : wordBounds.toList.Pairwise (· < ·) := by
  have isChain : wordBounds.toList.IsChain (· < ·) := by decide +kernel
  exact List.isChain_iff_pairwise.mp isChain

/-- A code is in one of the ranges between the bounds that are listed. -/
def InRanges : List Nat → Nat → Prop
  | start :: stop :: bounds, code => (start ≤ code ∧ code < stop) ∨ InRanges bounds code
  | _, _ => False

theorem exists_le_of_inRanges {bounds : List Nat} {code : Nat} (inRanges : InRanges bounds code) :
    ∃ bound ∈ bounds, bound ≤ code := by
  induction bounds, code using InRanges.induct with
  | case1 start stop bounds code inductionHypothesis =>
      rcases inRanges with here | later
      · exact ⟨start, List.mem_cons_self, here.1⟩
      · obtain ⟨bound, member, atMost⟩ := inductionHypothesis later
        exact ⟨bound, List.mem_cons_of_mem _ (List.mem_cons_of_mem _ member), atMost⟩
  | case2 bounds code noRange =>
      unfold InRanges at inRanges
      split at inRanges
      · exact absurd rfl (noRange _ _ _)
      · cases inRanges

/-- Inside a range the number of bounds that have been passed is odd. -/
theorem odd_countP_of_inRanges {bounds : List Nat} {code : Nat}
    (ascending : bounds.Pairwise (· < ·)) (inRanges : InRanges bounds code) :
    bounds.countP (Nat.ble · code) % 2 = 1 := by
  induction bounds, code using InRanges.induct with
  | case1 start stop bounds code inductionHypothesis =>
      obtain ⟨afterStart, ascending⟩ := List.pairwise_cons.mp ascending
      obtain ⟨afterStop, ascending⟩ := List.pairwise_cons.mp ascending
      have ordered := afterStart stop List.mem_cons_self
      rcases inRanges with ⟨atLeast, below⟩ | later
      · have none : bounds.countP (Nat.ble · code) = 0 := by
          refine List.countP_eq_zero.mpr fun bound member => ?_
          have bigger := afterStop bound member
          rw [Nat.ble_eq]
          omega
        simp [none, atLeast, below]
      · obtain ⟨bound, member, atMost⟩ := exists_le_of_inRanges later
        have bigger := afterStop bound member
        have ofRest := inductionHypothesis ascending later
        rw [List.countP_cons_of_pos (by rw [Nat.ble_eq]; omega),
          List.countP_cons_of_pos (by rw [Nat.ble_eq]; omega)]
        omega
  | case2 bounds code noRange =>
      unfold InRanges at inRanges
      split at inRanges
      · exact absurd rfl (noRange _ _ _)
      · cases inRanges

/-- Each start of ten codes is in one range with all ten. -/
def cover : List Nat → List Nat → Bool
  | start :: stop :: bounds, zeros =>
      (zeros.takeWhile (Nat.blt · stop)).all
          (fun first => Nat.ble start first && Nat.ble (first + 10) stop) &&
        cover bounds (zeros.dropWhile (Nat.blt · stop))
  | _, zeros => zeros.isEmpty

theorem inRanges_of_cover {bounds zeros : List Nat} (covered : cover bounds zeros) {first code : Nat}
    (member : first ∈ zeros) (within : first ≤ code ∧ code < first + 10) : InRanges bounds code := by
  induction bounds, zeros using cover.induct with
  | case1 start stop bounds zeros inductionHypothesis =>
      rw [cover, Bool.and_eq_true] at covered
      rw [← List.takeWhile_append_dropWhile (p := (Nat.blt · stop)) (l := zeros),
        List.mem_append] at member
      rcases member with here | later
      · have inRange := List.all_eq_true.mp covered.1 first here
        simp only [Bool.and_eq_true, Nat.ble_eq] at inRange
        exact .inl (by omega)
      · exact .inr (inductionHypothesis covered.2 later)
  | case2 bounds zeros noRange =>
      unfold cover at covered
      split at covered
      · rename_i same
        exact absurd rfl (noRange _ _ _)
      · rw [List.isEmpty_iff] at covered
        rw [covered] at member
        cases member

/-! ## Letters, digits and separators -/

/-- A unit is a word of lower-case letters of ASCII. -/
def IsUnitName (unit : List Char) : Prop :=
  unit ≠ [] ∧ ∀ s ∈ unit, s.isLower

theorem toNat_of_isLower {s : Char} (isLower : s.isLower) : 97 ≤ s.toNat ∧ s.toNat ≤ 122 := by
  obtain ⟨atLeast, atMost⟩ := Bool.and_eq_true_iff.mp isLower
  exact ⟨UInt32.le_iff_toNat_le.mp (of_decide_eq_true atLeast),
    UInt32.le_iff_toNat_le.mp (of_decide_eq_true atMost)⟩

/-- The characters beyond ASCII that match one of ASCII without regard to case. -/
theorem foldCase_cases (c : Char) :
    c ∈ ['İ', 'ı', 'ſ', '\u212a'] ∨ 128 ≤ (foldCase c).toNat ∨
      c.toNat < 128 ∧ foldCase c = c.toLower := by
  by_cases exotic : c ∈ ['İ', 'ı', 'ſ', '\u212a']
  · exact .inl exotic
  · simp only [List.mem_cons, List.not_mem_nil, or_false, not_or] at exotic
    obtain ⟨notCapital, notDotless, notLong, notKelvin⟩ := exotic
    have ofRest : foldCase c =
        if isLatinCapital c then Char.ofNat (c.toNat + 32) else c.toLower := by
      simp [foldCase, notCapital, notDotless, notLong, notKelvin]
    rw [ofRest]
    right
    split
    · rename_i isCapital
      simp only [isLatinCapital, Bool.and_eq_true, decide_eq_true_eq] at isCapital
      have valid : (c.toNat + 32).isValidChar := .inl (by omega)
      left
      rw [Char.ofNat, dif_pos valid]
      exact Nat.le_trans (by omega) (Nat.le_add_right c.toNat 32)
    · rcases toNat_toLower c with same | isUpper
      · rw [same]
        rcases Nat.lt_or_ge c.toNat 128 with isAscii | beyond
        · exact .inr ⟨isAscii, rfl⟩
        · exact .inl beyond
      · exact .inr ⟨by omega, rfl⟩

theorem foldCase_of_isLower {s : Char} (isLower : s.isLower) : foldCase s = s :=
  forall_ascii (fun s => s.isLower → foldCase s = s) (by decide)
    (by have bounds := toNat_of_isLower isLower; omega) isLower

/-- In ASCII, what matches a letter is that letter in lower case. -/
theorem class_of_sameLetter {s c : Char} (isLower : s.isLower) (ascii : c.toNat < 128)
    (same : sameLetter s c) : c.isAlpha ∧ lowerChar c = [s] := by
  have isFolded : foldCase c = s := by
    rw [sameLetter, beq_iff_eq, foldCase_of_isLower isLower] at same
    exact same.symm
  rw [← isFolded] at isLower ⊢
  exact forall_ascii (fun c => (foldCase c).isLower → c.isAlpha ∧ lowerChar c = [foldCase c])
    (by decide) ascii isLower

/-- The letters of a unit in ASCII are letters, and written in lower case they are those of the
unit that they match. -/
theorem lower_take_of_dropStartFolded? {unit text rest : List Char}
    (letters : ∀ s ∈ unit, s.isLower) (ascii : IsAscii text)
    (dropped : dropStartFolded? unit text = some rest) :
    lower (text.take unit.length) = unit ∧ ∀ c ∈ text.take unit.length, c.isAlpha := by
  induction unit generalizing text with
  | nil => exact ⟨rfl, by simp⟩
  | cons s unit inductionHypothesis =>
      obtain ⟨c, text, rfl, same, dropped⟩ := exists_of_dropStartFolded?_cons dropped
      obtain ⟨isLetter, letters⟩ := List.forall_mem_cons.mp letters
      obtain ⟨isAscii, ascii⟩ := List.forall_mem_cons.mp ascii
      obtain ⟨isAlpha, isLower⟩ := class_of_sameLetter isLetter isAscii same
      obtain ⟨sameRest, allAlpha⟩ := inductionHypothesis letters ascii dropped
      rw [List.length_cons, List.take_succ_cons]
      constructor
      · rw [lower, List.flatMap_cons, isLower, ← lower, sameRest]
        rfl
      · exact List.forall_mem_cons.mpr ⟨isAlpha, allAlpha⟩

/-- What matches a letter of ASCII goes on a name and is in no number. -/
theorem class_of_sameLetter_isLower {s c : Char} (isLower : s.isLower) (same : sameLetter s c) :
    isNameChar c ∧ isNumberChar c = false := by
  have isFolded : foldCase c = s := by
    rw [sameLetter, beq_iff_eq, foldCase_of_isLower isLower] at same
    exact same.symm
  have bounds := toNat_of_isLower isLower
  rcases foldCase_cases c with exotic | beyond | ⟨isAscii, ofLower⟩
  · have areWords : ∀ c ∈ ['İ', 'ı', 'ſ', '\u212a'], 128 ≤ c.toNat ∧
        boundsUpTo c.toNat % 2 = 1 ∧ isNumberChar c = false := by
      decide +kernel
    obtain ⟨beyond, isOdd, notNumber⟩ := areWords c exotic
    rw [isNameChar, (isWordChar_iff beyond).mpr isOdd]
    exact ⟨rfl, notNumber⟩
  · rw [isFolded] at beyond
    omega
  · have isLower' : c.toLower.isLower := by
      rw [← ofLower, isFolded]
      exact isLower
    exact forall_ascii (fun c => c.toLower.isLower → isNameChar c ∧ isNumberChar c = false)
      (by decide) isAscii isLower'

theorem class_of_opening {c : Char} (isAscii : c.toNat < 128) (same : sameLetter '(' c) :
    c = '(' :=
  forall_ascii (fun c => sameLetter '(' c → c = '(') (by decide) isAscii same

/-- Nothing but an opening parenthesis matches one. -/
theorem eq_of_sameLetter_opening {c : Char} (same : sameLetter '(' c) : c = '(' := by
  have isFolded : foldCase c = '(' := by
    rw [sameLetter, beq_iff_eq] at same
    exact same.symm
  rcases foldCase_cases c with exotic | beyond | ⟨isAscii, -⟩
  · have ofExotic : ∀ c ∈ ['İ', 'ı', 'ſ', '\u212a'], foldCase c ≠ '(' := by decide
    exact absurd isFolded (ofExotic c exotic)
  · rw [isFolded] at beyond
    exact absurd beyond (by decide)
  · exact class_of_opening isAscii same

/-- A digit goes on a name. -/
theorem isNameChar_of_isDigit {c : Char} (digit : isDigit c) : isNameChar c := by
  rw [isDigit, Bool.or_eq_true, Bool.and_eq_true, ← Array.any_toList, List.any_eq_true] at digit
  rcases digit with ascii | ⟨beyond, start, member, inScript⟩
  · have isAscii : c.toNat < 128 := by
      obtain ⟨-, atMost⟩ := Bool.and_eq_true_iff.mp ascii
      exact Nat.lt_of_le_of_lt (UInt32.le_iff_toNat_le.mp (of_decide_eq_true atMost)) (by decide)
    exact forall_ascii (fun c => c.isDigit → isNameChar c) (by decide) isAscii ascii
  · rw [Bool.and_eq_true, decide_eq_true_eq, decide_eq_true_eq] at inScript
    rw [decide_eq_true_eq] at beyond
    have covered : cover wordBounds.toList digitZeros.toList := by decide +kernel
    have isWord : isWordChar c :=
      (isWordChar_iff beyond).mpr
        (odd_countP_of_inRanges ascending_wordBounds (inRanges_of_cover covered member inScript))
    rw [isNameChar, isWord, Bool.true_or]

/-- A character that goes on neither a name nor a number. -/
def isSeparator (c : Char) : Bool :=
  !isNameChar c && !isNumberChar c

/-- Blanks are separators. -/
theorem isSeparator_of_isBlank {c : Char} (blank : isBlank c) : isSeparator c := by
  have notName : isNameChar c = false := by
    rcases Nat.lt_or_ge c.toNat 128 with isAscii | beyond
    · exact forall_ascii (fun c => isBlank c → isNameChar c = false) (by decide) isAscii blank
    · have isListed : c.toNat ∈ [0x85, 0xA0, 0x1680] ++ List.range' 0x2000 11 ++
          [0x2028, 0x2029, 0x202F, 0x205F, 0x3000] := by
        simp only [isBlank, Bool.or_eq_true, Bool.and_eq_true, decide_eq_true_eq,
          beq_iff_eq] at blank
        simp only [List.mem_append, List.mem_cons, List.mem_range'_1, List.not_mem_nil, or_false]
        omega
      have areEven : ∀ code ∈ [0x85, 0xA0, 0x1680] ++ List.range' 0x2000 11 ++
          [0x2028, 0x2029, 0x202F, 0x205F, 0x3000], boundsUpTo code % 2 = 0 := by
        decide +kernel
      have isEven := areEven c.toNat isListed
      have notWord : ¬ isWordChar c := by
        rw [isWordChar_iff beyond]
        omega
      have notHyphen : c ≠ '-' := by
        rintro rfl
        exact absurd beyond (by decide)
      simp [isNameChar, notWord, notHyphen]
  rw [isSeparator, notName, isNumberChar_of_isBlank blank]
  rfl

/-! ## Where a text is cut -/

/-- The last character of a text after `previous`. -/
def lastAfter (previous : Option Char) (text : List Char) : Option Char :=
  text.foldl (fun _ c => some c) previous

/-- Nothing of a name goes on from one side of a cut to the other. -/
def Apart (previous : Option Char) (text : List Char) : Prop :=
  ∀ x ∈ previous, ∀ y ∈ text.head?, isNameChar x = false ∨ isNameChar y = false

/-- A text begins with nothing that a number could. -/
def BeginsNoNumber (text : List Char) : Prop :=
  ∀ y ∈ text.head?, isNumberChar y = false

theorem BeginsNoNumber.endsNumber {text : List Char} (noNumber : BeginsNoNumber text) :
    EndsNumber text := by
  intro y isHead
  have notNumber := noNumber y isHead
  simp only [isNumberChar, Bool.or_eq_false_iff, beq_eq_false_iff_ne] at notNumber
  exact ⟨notNumber.1.2, notNumber.2⟩

theorem notNumber_of_isSeparator {c : Char} (separates : isSeparator c) :
    isNameChar c = false ∧ isNumberChar c = false := by
  simpa [isSeparator] using separates

theorem isBlank_of_isNameChar {c : Char} (isName : isNameChar c) : isBlank c = false := by
  by_contra blank
  rw [Bool.not_eq_false] at blank
  rw [(notNumber_of_isSeparator (isSeparator_of_isBlank blank)).1] at isName
  cases isName

theorem beginsNoNumber_cons {c : Char} (notNumber : isNumberChar c = false) (text : List Char) :
    BeginsNoNumber (c :: text) := by
  rintro y isHead
  obtain rfl : c = y := Option.some.inj isHead
  exact notNumber

theorem apart_cons {c : Char} (notName : isNameChar c = false) (previous : Option Char)
    (text : List Char) : Apart previous (c :: text) := by
  rintro x - y isHead
  obtain rfl : c = y := Option.some.inj isHead
  exact .inr notName

theorem lastAfter_append (previous : Option Char) (left right : List Char) :
    lastAfter previous (left ++ right) = lastAfter (lastAfter previous left) right :=
  List.foldl_append

theorem lastAfter_eq_getLast? (previous : Option Char) {text : List Char} (nonempty : text ≠ []) :
    lastAfter previous text = text.getLast? := by
  obtain ⟨start, last, rfl⟩ := (List.eq_nil_or_concat' text).resolve_left nonempty
  rw [lastAfter_append, List.getLast?_concat]
  rfl

/-! ## Readings before a cut -/

/-- The digits that a text starts with are digits. -/
theorem exists_digit_of_lt_leadingDigits {text : List Char} {index : Nat}
    (within : index < leadingDigits text) : ∃ d, text[index]? = some d ∧ isDigit d := by
  have isPrefix := List.takeWhile_prefix (l := text) isDigit
  obtain ⟨rest, same⟩ := isPrefix
  refine ⟨(text.takeWhile isDigit)[index], ?_, List.mem_takeWhile_imp (List.getElem_mem within)⟩
  nth_rewrite 1 [← same]
  rw [List.getElem?_append_left within, List.getElem?_eq_getElem within]

theorem exists_digit_of_mem_unsignedLengths {text : List Char} {length : Nat}
    (member : length ∈ unsignedLengths text) : ∃ d, text[length - 1]? = some d ∧ isDigit d := by
  simp only [unsignedLengths, List.mem_append, List.mem_map, mem_downFrom] at member
  rcases member with ⟨digits, ⟨positive, atMost⟩, rfl⟩ | ⟨positive, atMost⟩
  · have inFraction : ∃ d, (text.drop (leadingDigits text))[digits]? = some d ∧ isDigit d := by
      unfold fractionDigits at atMost
      split at atMost
      · rename_i fraction isPoint
        have within : digits - 1 < leadingDigits fraction := by omega
        obtain ⟨d, isAt, isDigit⟩ := exists_digit_of_lt_leadingDigits within
        refine ⟨d, ?_, isDigit⟩
        rw [isPoint, List.getElem?_cons, if_neg (by omega)]
        exact isAt
      · omega
    obtain ⟨d, isAt, isDigit⟩ := inFraction
    refine ⟨d, ?_, isDigit⟩
    rw [List.getElem?_drop] at isAt
    rw [← isAt]
    congr 1
    omega
  · exact exists_digit_of_lt_leadingDigits (by omega)

/-- A number ends with a digit. -/
theorem exists_digit_of_mem_numberLengths {text : List Char} {length : Nat}
    (member : length ∈ numberLengths text) : ∃ d, text[length - 1]? = some d ∧ isDigit d := by
  cases text with
  | nil => cases member
  | cons c text =>
      rw [numberLengths] at member
      split at member
      · obtain ⟨fewer, isFewer, rfl⟩ := List.mem_map.mp member
        have positive := pos_of_mem_unsignedLengths isFewer
        obtain ⟨d, isAt, isDigit⟩ := exists_digit_of_mem_unsignedLengths isFewer
        refine ⟨d, ?_, isDigit⟩
        rw [List.getElem?_cons, if_neg (by omega), Nat.add_sub_cancel]
        exact isAt
      · exact exists_digit_of_mem_unsignedLengths member

/-- Letters that are read after a character of a name are not read over a cut. -/
theorem dropStartFolded?_cut {start : List Char} (letters : ∀ s ∈ start, s.isLower) {p : Char}
    (isName : isNameChar p) {left right : List Char}
    (apart : Apart (lastAfter (some p) left) right) :
    dropStartFolded? start (left ++ right) =
      (dropStartFolded? start left).map (· ++ right) := by
  induction left generalizing p start with
  | nil =>
      cases start with
      | nil => rfl
      | cons s start =>
          cases right with
          | nil => rfl
          | cons y right =>
              have notName := (apart p rfl y rfl).resolve_left (by simp [isName])
              have different : sameLetter s y = false := by
                by_contra same
                rw [Bool.not_eq_false] at same
                rw [(class_of_sameLetter_isLower (letters s List.mem_cons_self) same).1] at notName
                cases notName
              simp only [List.nil_append, dropStartFolded?, different]
              rfl
  | cons c left inductionHypothesis =>
      cases start with
      | nil => rfl
      | cons s start =>
          obtain ⟨isLetter, letters⟩ := List.forall_mem_cons.mp letters
          rw [List.cons_append, dropStartFolded?, dropStartFolded?]
          split
          · rename_i same
            exact inductionHypothesis letters (class_of_sameLetter_isLower isLetter same).1 apart
          · rfl

/-- What matches a unit ends with a character of a name. -/
theorem isNameChar_last_of_dropStartFolded? {start : List Char}
    (letters : ∀ s ∈ start, s.isLower) {p : Char} (isName : isNameChar p) {text : List Char}
    (dropped : dropStartFolded? start text = some []) :
    ∀ x ∈ lastAfter (some p) text, isNameChar x := by
  induction text generalizing p start with
  | nil =>
      rintro x isLast
      obtain rfl : p = x := Option.some.inj isLast
      exact isName
  | cons c text inductionHypothesis =>
      cases start with
      | nil => cases dropped
      | cons s start =>
          obtain ⟨isLetter, letters⟩ := List.forall_mem_cons.mp letters
          rw [dropStartFolded?] at dropped
          split at dropped
          · rename_i same
            exact inductionHypothesis letters (class_of_sameLetter_isLower isLetter same).1 dropped
          · cases dropped

/-- A word that is dropped is made of characters of names. -/
theorem exists_word_of_dropStartFolded? {start : List Char} (letters : ∀ s ∈ start, s.isLower)
    {text rest : List Char} (dropped : dropStartFolded? start text = some rest) :
    ∃ word, text = word ++ rest ∧ ∀ c ∈ word, isNameChar c := by
  induction start generalizing text with
  | nil => exact ⟨[], Option.some.inj dropped, List.forall_mem_nil _⟩
  | cons s start inductionHypothesis =>
      obtain ⟨c, text, rfl, same, dropped⟩ := exists_of_dropStartFolded?_cons dropped
      obtain ⟨isLetter, letters⟩ := List.forall_mem_cons.mp letters
      obtain ⟨word, rfl, areNames⟩ := inductionHypothesis letters dropped
      have isName := (class_of_sameLetter_isLower isLetter same).1
      exact ⟨c :: word, rfl, List.forall_mem_cons.mpr ⟨isName, areNames⟩⟩

/-- The reading of the start of a longer text. -/
def Reading.before (reading : Reading) (right : List Char) : Reading :=
  { reading with rest := reading.rest ++ right }

section Units

variable {units : List (List Char)}

/-- The last character of a number and what comes after it. -/
theorem exists_last_of_mem_numberLengths (previous : Option Char) {text : List Char} {length : Nat}
    (member : length ∈ numberLengths text) :
    ∃ d, isNameChar d ∧ lastAfter previous text = lastAfter (some d) (text.drop length) := by
  obtain ⟨d, isAt, isDigit⟩ := exists_digit_of_mem_numberLengths member
  have positive := pos_of_mem_numberLengths member
  refine ⟨d, isNameChar_of_isDigit isDigit, ?_⟩
  have nonempty : text.take length ≠ [] := by
    intro isEmpty
    rcases List.take_eq_nil_iff.mp isEmpty with none | isNil
    · omega
    · rw [isNil] at isAt
      cases isAt
  have isLast : lastAfter previous (text.take length) = some d := by
    have within := le_length_of_mem_numberLengths member
    rw [lastAfter_eq_getLast? _ nonempty, List.getLast?_eq_getElem?, List.length_take,
      Nat.min_eq_left within, List.getElem?_take_of_lt (by omega)]
    exact isAt
  rw [← isLast, ← lastAfter_append, List.take_append_drop]

theorem readingsWith_cut (names : ∀ unit ∈ units, IsUnitName unit) {previous : Option Char}
    {left right : List Char} (apart : Apart (lastAfter previous left) right) {length : Nat}
    (member : length ∈ numberLengths left) :
    readingsWith units (left ++ right) length =
      (readingsWith units left length).map (·.before right) := by
  obtain ⟨d, isName, isLast⟩ := exists_last_of_mem_numberLengths previous member
  rw [isLast] at apart
  have within := le_length_of_mem_numberLengths member
  rw [readingsWith, readingsWith, List.map_filterMap]
  refine List.filterMap_congr fun unit isUnit => ?_
  rw [List.drop_append_of_le_length within, List.take_append_of_le_length within,
    dropStartFolded?_cut (names unit isUnit).2 isName apart]
  cases dropped : dropStartFolded? unit (left.drop length) with
  | none => rfl
  | some rest =>
      have fits : unit.length ≤ (left.drop length).length := by
        rw [length_of_dropStartFolded? dropped]
        exact Nat.le_add_right _ _
      rw [List.take_append_of_le_length fits]
      rfl

theorem readings_cut (names : ∀ unit ∈ units, IsUnitName unit) {previous : Option Char}
    {c : Char} {left right : List Char} (ends : EndsNumber right)
    (apart : Apart (lastAfter previous (c :: left)) right) :
    readings units (c :: left ++ right) = (readings units (c :: left)).map (·.before right) := by
  rw [readings, readings, List.map_flatMap, List.cons_append,
    numberLengths_append ends, ← List.cons_append]
  exact List.flatMap_congr fun length member => readingsWith_cut names apart member

/-- Whether a name ends after a reading does not depend on what comes after the cut. -/
theorem nameEnds_before (names : ∀ unit ∈ units, IsUnitName unit) {previous : Option Char}
    {left right : List Char} (apart : Apart (lastAfter previous left) right) {reading : Reading}
    (member : reading ∈ readings units left) :
    nameEnds (reading.before right).rest = nameEnds reading.rest := by
  obtain ⟨length, isLength, atLength⟩ := List.mem_flatMap.mp member
  obtain ⟨unit, isUnit, found⟩ := List.mem_filterMap.mp atLength
  obtain ⟨rest, dropped, rfl⟩ := Option.map_eq_some_iff.mp found
  obtain ⟨d, isName, isLast⟩ := exists_last_of_mem_numberLengths previous isLength
  cases rest with
  | cons => rfl
  | nil =>
      cases right with
      | nil => rfl
      | cons y right =>
          rw [isLast] at apart
          have endsName := isNameChar_last_of_dropStartFolded? (names unit isUnit).2 isName dropped
          have notName : isNameChar y = false := by
            cases last : lastAfter (some d) (left.drop length) with
            | none =>
                cases empty : left.drop length with
                | nil =>
                    rw [empty] at last
                    cases last
                | cons e others =>
                    rw [empty, lastAfter_eq_getLast? _ (List.cons_ne_nil e others)] at last
                    simp at last
            | some x =>
                exact (apart x last y rfl).resolve_left (by simp [endsName x last])
          simp [Reading.before, nameEnds, notName]

theorem find?_congr_of_mem {α : Type} {test test' : α → Bool} {items : List α}
    (same : ∀ item ∈ items, test item = test' item) : items.find? test = items.find? test' := by
  induction items with
  | nil => rfl
  | cons item items inductionHypothesis =>
      obtain ⟨here, later⟩ := List.forall_mem_cons.mp same
      rw [List.find?_cons, List.find?_cons, here, inductionHypothesis later]

theorem quantityAt?_cut (names : ∀ unit ∈ units, IsUnitName unit) {previous : Option Char}
    {c : Char} {left right : List Char} (ends : EndsNumber right)
    (apart : Apart (lastAfter previous (c :: left)) right) :
    quantityAt? units (c :: left ++ right) =
      (quantityAt? units (c :: left)).map (·.before right) := by
  rw [quantityAt?, quantityAt?, readings_cut names ends apart, List.find?_map]
  congr 1
  exact find?_congr_of_mem fun reading member => nameEnds_before names apart member

/-! ## Pieces -/

theorem piecesAfter_plain {c : Char} (notNumber : isNumberChar c = false)
    (previous : Option Char) (text : List Char) :
    piecesAfter units previous (c :: text) = .plain c :: piecesAfter units (some c) text := by
  rw [piecesAfter]
  split
  · rename_i found
    rw [quantityAt?_of_not_isNumberChar notNumber] at found
    simp at found
  · rfl

theorem piecesAfter_of_quantity {previous : Option Char} {c : Char} {text : List Char}
    {reading : Reading} (mayFollow : quantityMayFollow previous)
    (found : quantityAt? units (c :: text) = some reading) :
    piecesAfter units previous (c :: text) =
      .quantity reading.number reading.unit ::
        piecesAfter units (reading.number ++ reading.unit).getLast? reading.rest := by
  rw [piecesAfter]
  split
  · rename_i isFirst
    rw [if_pos mayFollow, found] at isFirst
    cases isFirst
    rfl
  · rename_i noQuantity
    rw [if_pos mayFollow, found] at noQuantity
    cases noQuantity

theorem piecesAfter_of_none {previous : Option Char} {c : Char} {text : List Char}
    (noQuantity :
      (if quantityMayFollow previous then quantityAt? units (c :: text) else none) = none) :
    piecesAfter units previous (c :: text) = .plain c :: piecesAfter units (some c) text := by
  rw [piecesAfter]
  split
  · rename_i found
    rw [noQuantity] at found
    cases found
  · rfl

/-- What stands before a text that begins with no number does not matter to it. -/
theorem piecesAfter_of_beginsNoNumber {text : List Char} (noNumber : BeginsNoNumber text)
    (previous : Option Char) : piecesAfter units previous text = pieces units text := by
  cases text with
  | nil =>
      rw [pieces, piecesAfter, piecesAfter]
  | cons c text =>
      rw [pieces, piecesAfter_plain (noNumber c rfl), piecesAfter_plain (noNumber c rfl)]

/-- The pieces of a text that is cut where no number goes on are those of its parts. -/
theorem piecesAfter_append (names : ∀ unit ∈ units, IsUnitName unit) (previous : Option Char)
    {left right : List Char} (ends : EndsNumber right)
    (apart : Apart (lastAfter previous left) right) :
    piecesAfter units previous (left ++ right) =
      piecesAfter units previous left ++ piecesAfter units (lastAfter previous left) right := by
  fun_induction piecesAfter units previous left with
  | case1 previous => rfl
  | case2 previous c rest reading found inductionHypothesis =>
      obtain ⟨mayFollow, isFirst⟩ := Option.ite_none_right_eq_some.mp found
      have inWhole := quantityAt?_cut names ends apart
      rw [isFirst, Option.map_some, List.cons_append] at inWhole
      obtain ⟨positive, same⟩ := append_of_mem_readings (List.mem_of_find?_eq_some isFirst)
      have nonempty : reading.number ++ reading.unit ≠ [] := by
        intro isEmpty
        rw [(List.append_eq_nil_iff.mp isEmpty).1] at positive
        cases positive
      have sameLast : lastAfter (reading.number ++ reading.unit).getLast? reading.rest =
          lastAfter previous (c :: rest) := by
        rw [← lastAfter_eq_getLast? previous nonempty, ← lastAfter_append, same]
      rw [sameLast] at inductionHypothesis
      rw [List.cons_append, piecesAfter_of_quantity mayFollow inWhole]
      exact congrArg (_ :: ·) (inductionHypothesis apart)
  | case3 previous c rest noQuantity inductionHypothesis =>
      have inWhole := quantityAt?_cut names ends apart
      have noneInWhole : (if quantityMayFollow previous then
          quantityAt? units (c :: (rest ++ right)) else none) = none := by
        split at noQuantity
        · rename_i mayFollow
          rw [if_pos mayFollow, ← List.cons_append, inWhole, noQuantity]
          rfl
        · rename_i blocked
          rw [if_neg blocked]
      rw [List.cons_append, piecesAfter_of_none noneInWhole, inductionHypothesis apart]
      rfl

/-- The pieces of a text that is cut before what begins no number are those of its parts. -/
theorem piecesAfter_cut (names : ∀ unit ∈ units, IsUnitName unit) (previous : Option Char)
    {left right : List Char} (noNumber : BeginsNoNumber right)
    (apart : Apart (lastAfter previous left) right) :
    piecesAfter units previous (left ++ right) =
      piecesAfter units previous left ++ pieces units right := by
  rw [piecesAfter_append names previous noNumber.endsNumber apart,
    piecesAfter_of_beginsNoNumber noNumber]

/-- A text is cut around a separator. -/
theorem pieces_separator (names : ∀ unit ∈ units, IsUnitName unit) (left : List Char) {c : Char}
    (separates : isSeparator c) (right : List Char) :
    pieces units (left ++ c :: right) = pieces units left ++ .plain c :: pieces units right := by
  obtain ⟨notName, notNumber⟩ := notNumber_of_isSeparator separates
  have notPoint : c ≠ '.' := by
    rintro rfl
    cases notNumber
  have free : piecesAfter units (some c) right = piecesAfter units none right := by
    have mayFollow : quantityMayFollow (some c) = quantityMayFollow none := by
      simp [quantityMayFollow, notName, notPoint]
    cases right with
    | nil => rw [piecesAfter, piecesAfter]
    | cons d right => rw [piecesAfter, piecesAfter, mayFollow]
  rw [pieces, piecesAfter_cut names none (beginsNoNumber_cons notNumber right)
    (apart_cons notName _ right), pieces, pieces, piecesAfter_plain notNumber, free, pieces]

/-- A text without characters of numbers has no quantities. -/
theorem piecesAfter_letters {letters : List Char}
    (notNumber : ∀ c ∈ letters, isNumberChar c = false) (previous : Option Char)
    {right : List Char} (noNumber : BeginsNoNumber right) :
    piecesAfter units previous (letters ++ right) =
      letters.map Piece.plain ++ pieces units right := by
  induction letters generalizing previous with
  | nil => exact piecesAfter_of_beginsNoNumber noNumber previous
  | cons c letters inductionHypothesis =>
      obtain ⟨here, later⟩ := List.forall_mem_cons.mp notNumber
      rw [List.cons_append, piecesAfter_plain here, inductionHypothesis later]
      rfl

end Units

end Value

end ContainerPreview
