import ContainerPreview.Proofs.Value.Cut

/-!
# Numbers with a unit

A number with a unit after it is read as one quantity, where a name ends after the unit.  A
number with a word that is none of the units is read as none.  This holds whatever script the
number and the unit are written in.
-/

namespace ContainerPreview

open Text

namespace Value

/-- A number and one of the units, in some case of letters. -/
structure IsQuantity (units : List (List Char)) (number unit : List Char) : Prop where
  isNumber : isNumber number
  isUnit : ∃ name ∈ units, dropStartFolded? name unit = some []

/-- A text is divided in one way only into a part of a name and a rest before which a name
ends. -/
theorem eq_of_nameEnds {left right left' right' : List Char}
    (same : left ++ right = left' ++ right') (isName : ∀ c ∈ left, isNameChar c)
    (isName' : ∀ c ∈ left', isNameChar c) (ends : nameEnds right) (ends' : nameEnds right') :
    left = left' ∧ right = right' := by
  have ofEnd : ∀ {part rest : List Char}, (∀ c ∈ part, isNameChar c) → nameEnds rest →
      (part ++ rest).takeWhile isNameChar = part ∧ (part ++ rest).dropWhile isNameChar = rest := by
    intro part rest isName ends
    have none : rest.takeWhile isNameChar = [] ∧ rest.dropWhile isNameChar = rest := by
      cases rest with
      | nil => exact ⟨rfl, rfl⟩
      | cons c rest =>
          have notName : isNameChar c = false := by simpa [nameEnds] using ends
          simp [notName]
    rw [List.takeWhile_append_of_pos isName, List.dropWhile_append_of_pos isName, none.1, none.2]
    simp
  constructor
  · rw [← (ofEnd isName ends).1, same]
    exact (ofEnd isName' ends').1
  · rw [← (ofEnd isName ends).2, same]
    exact (ofEnd isName' ends').2

/-- What matches a word in letters of ASCII is a part of a name and has nothing of a number. -/
theorem exists_of_dropStartFolded?_word {word text rest : List Char}
    (letters : ∀ s ∈ word, s.isLower) (dropped : dropStartFolded? word text = some rest) :
    ∃ matched, text = matched ++ rest ∧ matched.length = word.length ∧
      dropStartFolded? word matched = some [] ∧
        ∀ c ∈ matched, isNameChar c ∧ isNumberChar c = false := by
  induction word generalizing text with
  | nil =>
      cases dropped
      exact ⟨[], rfl, rfl, rfl, by simp⟩
  | cons s word inductionHypothesis =>
      obtain ⟨c, text, rfl, same, dropped⟩ := exists_of_dropStartFolded?_cons dropped
      obtain ⟨isLetter, letters⟩ := List.forall_mem_cons.mp letters
      obtain ⟨matched, rfl, sameLength, whole, classes⟩ := inductionHypothesis letters dropped
      refine ⟨c :: matched, rfl, by simp [sameLength], ?_,
        List.forall_mem_cons.mpr ⟨class_of_sameLetter_isLower isLetter same, classes⟩⟩
      rw [dropStartFolded?, if_pos same, whole]

/-- A word in letters of ASCII is told by what matches it. -/
theorem eq_of_matches {word word' text : List Char} (letters : ∀ s ∈ word, s.isLower)
    (letters' : ∀ s ∈ word', s.isLower) (whole : dropStartFolded? word text = some [])
    (whole' : dropStartFolded? word' text = some []) : word = word' := by
  induction text generalizing word word' with
  | nil =>
      cases word with
      | cons => cases whole
      | nil =>
          cases word' with
          | cons => cases whole'
          | nil => rfl
  | cons c text inductionHypothesis =>
      cases word with
      | nil => cases whole
      | cons s word =>
          cases word' with
          | nil => cases whole'
          | cons s' word' =>
              obtain ⟨_, _, isCons, same, dropped⟩ := exists_of_dropStartFolded?_cons whole
              cases isCons
              obtain ⟨_, _, isCons, same', dropped'⟩ := exists_of_dropStartFolded?_cons whole'
              cases isCons
              obtain ⟨isLetter, letters⟩ := List.forall_mem_cons.mp letters
              obtain ⟨isLetter', letters'⟩ := List.forall_mem_cons.mp letters'
              rw [sameLetter, beq_iff_eq, foldCase_of_isLower isLetter] at same
              rw [sameLetter, beq_iff_eq, foldCase_of_isLower isLetter'] at same'
              rw [same.trans same'.symm, inductionHypothesis letters letters' dropped dropped']

theorem class_of_isUnit {units : List (List Char)} (names : ∀ unit ∈ units, IsUnitName unit)
    {unit : List Char} (isUnit : ∃ name ∈ units, dropStartFolded? name unit = some []) :
    unit ≠ [] ∧ ∀ c ∈ unit, isNameChar c ∧ isNumberChar c = false := by
  obtain ⟨name, isName, whole⟩ := isUnit
  obtain ⟨nonempty, letters⟩ := names name isName
  obtain ⟨matched, same, sameLength, -, classes⟩ := exists_of_dropStartFolded?_word letters whole
  rw [List.append_nil] at same
  rw [same]
  refine ⟨?_, classes⟩
  rintro rfl
  exact nonempty (List.length_eq_zero_iff.mp sameLength.symm)

/-- A word matches itself. -/
theorem matches_self (word : List Char) : dropStartFolded? word word = some [] := by
  induction word with
  | nil => rfl
  | cons c word inductionHypothesis =>
      rw [dropStartFolded?, sameLetter, BEq.rfl, if_pos rfl, inductionHypothesis]

/-- A word in lower case is itself in lower case. -/
theorem lower_of_isLower {word : List Char} (letters : ∀ s ∈ word, s.isLower) :
    lower word = word := by
  refine (List.flatMap_congr fun c member => ?_).trans (List.flatMap_singleton' word)
  exact forall_ascii (fun c => c.isLower → lowerChar c = [c]) (by decide)
    (toNat_of_isAlpha (isAlpha_of_isLower (letters c member))) (letters c member)

/-- In ASCII, what matches a word is the word in some case of letters. -/
theorem lower_of_matches {word text : List Char} (letters : ∀ s ∈ word, s.isLower)
    (whole : dropStartFolded? word text = some []) (ascii : IsAscii text) :
    lower text = word ∧ ∀ c ∈ text, c.isAlpha := by
  have sameLength : text.length = word.length := length_of_dropStartFolded? whole
  have taken := lower_take_of_dropStartFolded? letters ascii whole
  rwa [← sameLength, List.take_length] at taken

theorem length_mem_of_isNumber {number : List Char} (isNumber : isNumber number) :
    number.length ∈ numberLengths number := by
  rwa [Value.isNumber, List.contains_iff_mem] at isNumber

theorem isNumberChar_of_isNumber {number : List Char} (isNumber : isNumber number) :
    ∀ c ∈ number, isNumberChar c := by
  have within := le_length_takeWhile_of_mem_numberLengths (length_mem_of_isNumber isNumber)
  have whole : number.takeWhile isNumberChar = number :=
    (List.takeWhile_prefix isNumberChar).eq_of_length_le within
  intro c member
  rw [← whole] at member
  exact List.mem_takeWhile_imp member

theorem nonempty_of_isNumber {number : List Char} (isNumber : isNumber number) : number ≠ [] := by
  rintro rfl
  cases isNumber

/-- A number ends with a digit, which goes on a name. -/
theorem last_of_isNumber (previous : Option Char) {number : List Char}
    (isNumber : isNumber number) : ∃ d, lastAfter previous number = some d ∧ isNameChar d := by
  obtain ⟨d, isName, isLast⟩ :=
    exists_last_of_mem_numberLengths previous (length_mem_of_isNumber isNumber)
  rw [List.drop_length] at isLast
  exact ⟨d, isLast, isName⟩

/-- A word that has nothing of a number ends the number before it. -/
theorem endsNumber_of_word {word : List Char} (nonempty : word ≠ [])
    (classes : ∀ c ∈ word, isNameChar c ∧ isNumberChar c = false) (rest : List Char) :
    EndsNumber (word ++ rest) := by
  obtain ⟨c, word, rfl⟩ := List.exists_cons_of_ne_nil nonempty
  exact (beginsNoNumber_cons (classes c List.mem_cons_self).2 (word ++ rest)).endsNumber

/-- A number stays one before what no number goes on with. -/
theorem mem_numberLengths_append {number rest : List Char} (ends : EndsNumber rest)
    {length : Nat} (nonempty : number ≠ []) :
    length ∈ numberLengths (number ++ rest) ↔ length ∈ numberLengths number := by
  obtain ⟨c, number, rfl⟩ := List.exists_cons_of_ne_nil nonempty
  rw [List.cons_append, numberLengths_append ends]

section Units

variable {units : List (List Char)}

theorem isQuantity_of_mem_readings (names : ∀ unit ∈ units, IsUnitName unit) {text : List Char}
    {reading : Reading} (member : reading ∈ readings units text) :
    IsQuantity units reading.number reading.unit := by
  obtain ⟨length, isLength, atLength⟩ := List.mem_flatMap.mp member
  obtain ⟨name, isName, found⟩ := List.mem_filterMap.mp atLength
  obtain ⟨rest, dropped, rfl⟩ := Option.map_eq_some_iff.mp found
  obtain ⟨nonempty, letters⟩ := names name isName
  obtain ⟨matched, same, sameLength, whole, classes⟩ :=
    exists_of_dropStartFolded?_word letters dropped
  have isUnit : (text.drop length).take name.length = matched := by
    rw [same, ← sameLength, List.take_left]
  have within := le_length_of_mem_numberLengths isLength
  have matchedNonempty : matched ≠ [] := by
    rintro rfl
    exact nonempty (List.length_eq_zero_iff.mp sameLength.symm)
  have ends : EndsNumber (text.drop length) := by
    rw [same]
    exact endsNumber_of_word matchedNonempty classes rest
  have numberNonempty : text.take length ≠ [] := by
    have positive := (append_of_mem_readings member).1
    exact List.length_pos_iff.mp positive
  constructor
  · rw [isNumber, List.contains_iff_mem, List.length_take, Nat.min_eq_left within]
    rw [← mem_numberLengths_append ends numberNonempty, List.take_append_drop]
    exact isLength
  · exact ⟨name, isName, by rw [isUnit, whole]⟩

/-- A quantity at the start of a text is read. -/
theorem IsQuantity.mem_readings (names : ∀ unit ∈ units, IsUnitName unit)
    {number unit : List Char} (isQuantity : IsQuantity units number unit) (rest : List Char) :
    ⟨number, unit, rest⟩ ∈ readings units (number ++ unit ++ rest) := by
  obtain ⟨nonempty, classes⟩ := class_of_isUnit names isQuantity.isUnit
  obtain ⟨name, isName, whole⟩ := isQuantity.isUnit
  have ends : EndsNumber (unit ++ rest) := endsNumber_of_word nonempty classes rest
  have isLength : number.length ∈ numberLengths (number ++ unit ++ rest) := by
    rw [List.append_assoc, mem_numberLengths_append ends (nonempty_of_isNumber isQuantity.isNumber)]
    exact length_mem_of_isNumber isQuantity.isNumber
  have dropped : dropStartFolded? name (unit ++ rest) = some rest := dropStartFolded?_append whole rest
  have sameLength : unit.length = name.length := length_of_dropStartFolded? whole
  refine List.mem_flatMap.mpr ⟨number.length, isLength, List.mem_filterMap.mpr ⟨name, isName, ?_⟩⟩
  rw [List.append_assoc, List.drop_left, dropped, List.take_left, ← sameLength, List.take_left]
  rfl

/-- Of a number and a word that ends after it, nothing is read but the number and the word. -/
theorem eq_of_mem_readings (names : ∀ unit ∈ units, IsUnitName unit)
    {number word rest : List Char} (areMarks : ∀ c ∈ number, isNumberChar c)
    (isWord : ∀ c ∈ word, isNameChar c ∧ isNumberChar c = false) (nonempty : word ≠ [])
    (ends : nameEnds rest) {reading : Reading}
    (member : reading ∈ readings units (number ++ word ++ rest))
    (readingEnds : nameEnds reading.rest) : reading = ⟨number, word, rest⟩ := by
  have isQuantity := isQuantity_of_mem_readings names member
  obtain ⟨unitNonempty, classes⟩ := class_of_isUnit names isQuantity.isUnit
  have same := (append_of_mem_readings member).2
  rw [List.append_assoc, List.append_assoc] at same
  -- The number is what stands before the first character that no number has.
  have ofNumber : ∀ {number word rest : List Char}, (∀ c ∈ number, isNumberChar c) →
      (∀ c ∈ word, isNameChar c ∧ isNumberChar c = false) → word ≠ [] →
        (number ++ (word ++ rest)).takeWhile isNumberChar = number := by
    intro number word rest areMarks isWord nonempty
    obtain ⟨c, word, rfl⟩ := List.exists_cons_of_ne_nil nonempty
    rw [List.takeWhile_append_of_pos areMarks, List.cons_append,
      List.takeWhile_cons_of_neg (by simp [(isWord c List.mem_cons_self).2]), List.append_nil]
  have sameNumber : reading.number = number := by
    rw [← ofNumber (isNumberChar_of_isNumber isQuantity.isNumber) classes unitNonempty, same,
      ofNumber areMarks isWord nonempty]
  rw [sameNumber, List.append_cancel_left_eq] at same
  obtain ⟨sameUnit, sameRest⟩ := eq_of_nameEnds same (fun c member => (classes c member).1)
    (fun c member => (isWord c member).1) readingEnds ends
  cases reading
  simp_all

/-- A quantity that a name ends after is read as such. -/
theorem IsQuantity.quantityAt? (names : ∀ unit ∈ units, IsUnitName unit)
    {number unit rest : List Char} (isQuantity : IsQuantity units number unit)
    (ends : nameEnds rest) :
    quantityAt? units (number ++ unit ++ rest) = some ⟨number, unit, rest⟩ := by
  obtain ⟨nonempty, classes⟩ := class_of_isUnit names isQuantity.isUnit
  have isSome : (Value.quantityAt? units (number ++ unit ++ rest)).isSome :=
    List.find?_isSome.mpr ⟨_, isQuantity.mem_readings names rest, ends⟩
  obtain ⟨reading, found⟩ := Option.isSome_iff_exists.mp isSome
  have isReading := eq_of_mem_readings names (isNumberChar_of_isNumber isQuantity.isNumber) classes
    nonempty ends (List.mem_of_find?_eq_some found)
    (List.find?_some (p := fun reading : Reading => nameEnds reading.rest) found)
  rw [found, isReading]

/-- A number before a word that is none of the units begins no quantity. -/
theorem quantityAt?_of_foreign (names : ∀ unit ∈ units, IsUnitName unit)
    {number word rest : List Char} (areMarks : ∀ c ∈ number, isNumberChar c)
    (isWord : ∀ c ∈ word, isNameChar c ∧ isNumberChar c = false) (nonempty : word ≠ [])
    (ends : nameEnds rest) (foreign : ∀ name ∈ units, dropStartFolded? name word ≠ some []) :
    quantityAt? units (number ++ word ++ rest) = none := by
  cases found : quantityAt? units (number ++ word ++ rest) with
  | none => rfl
  | some reading =>
      have member := List.mem_of_find?_eq_some found
      have isReading := eq_of_mem_readings names areMarks isWord nonempty ends member
        (List.find?_some (p := fun reading : Reading => nameEnds reading.rest) found)
      obtain ⟨name, isName, whole⟩ := (isQuantity_of_mem_readings names member).isUnit
      rw [isReading] at whole
      exact absurd whole (foreign name isName)

end Units

end Value

end ContainerPreview
