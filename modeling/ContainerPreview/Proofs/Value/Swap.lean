import ContainerPreview.Proofs.Text.Trim
import ContainerPreview.Proofs.Value.Quantity

/-!
# Swapping units in the parts of a text

Units are swapped in a text as in its parts, if it is cut at separators or where a name begins.
A plus sign does not divide the quantities of a text, since it may be the sign of a number, but
it does not matter to what they are swapped for.
-/

namespace ContainerPreview

open Text

namespace Value

/-! ## Numbers, words and signs -/

section Units

variable {units : List (List Char)}

theorem piecesAfter_of_mayFollow {previous : Option Char} (mayFollow : quantityMayFollow previous)
    (text : List Char) : piecesAfter units previous text = pieces units text := by
  have same : quantityMayFollow previous = quantityMayFollow none := mayFollow
  cases text with
  | nil => rw [pieces, piecesAfter, piecesAfter]
  | cons c text => rw [pieces, piecesAfter, piecesAfter, same]

/-- In a word that has nothing of a number no quantity begins. -/
theorem piecesAfter_word {word : List Char} (notNumber : ∀ c ∈ word, isNumberChar c = false)
    (previous : Option Char) (rest : List Char) :
    piecesAfter units previous (word ++ rest) =
      word.map Piece.plain ++ piecesAfter units (lastAfter previous word) rest := by
  induction word generalizing previous with
  | nil => rfl
  | cons c word inductionHypothesis =>
      obtain ⟨here, later⟩ := List.forall_mem_cons.mp notNumber
      rw [List.cons_append, piecesAfter_plain here, inductionHypothesis later]
      rfl

/-- In a number before a word that is none of the units no quantity begins. -/
theorem piecesAfter_foreign (names : ∀ unit ∈ units, IsUnitName unit)
    {number word rest : List Char} (areMarks : ∀ c ∈ number, isNumberChar c)
    (isWord : ∀ c ∈ word, isNameChar c ∧ isNumberChar c = false) (nonempty : word ≠ [])
    (ends : nameEnds rest) (foreign : ∀ name ∈ units, dropStartFolded? name word ≠ some [])
    (previous : Option Char) :
    piecesAfter units previous (number ++ word ++ rest) =
      (number ++ word).map Piece.plain ++
        piecesAfter units (lastAfter previous (number ++ word)) rest := by
  induction number generalizing previous with
  | nil => exact piecesAfter_word (fun c member => (isWord c member).2) previous rest
  | cons c number inductionHypothesis =>
      have none : quantityAt? units (c :: number ++ word ++ rest) = none :=
        quantityAt?_of_foreign names areMarks isWord nonempty ends foreign
      rw [List.cons_append, List.cons_append] at none ⊢
      rw [piecesAfter_of_none (by rw [none, ite_self]),
        inductionHypothesis (List.forall_mem_cons.mp areMarks).2]
      rfl

theorem isNumber_of_plus {number : List Char} (isNumber : isNumber ('+' :: number)) :
    Value.isNumber number := by
  have isLength := length_mem_of_isNumber isNumber
  rw [numberLengths, if_pos (by decide)] at isLength
  obtain ⟨length, isUnsigned, same⟩ := List.mem_map.mp isLength
  rw [List.length_cons, Nat.add_right_cancel_iff] at same
  cases number with
  | nil => cases isUnsigned
  | cons c number =>
      have notSign : isSign c = false := by
        by_contra isSign
        rw [Bool.not_eq_false, Value.isSign, Bool.or_eq_true, beq_iff_eq, beq_iff_eq] at isSign
        have none : unsignedLengths (c :: number) = [] := by
          rcases isSign with rfl | rfl
          · exact unsignedLengths_eq_nil (by decide) (by decide)
          · exact unsignedLengths_eq_nil (by decide) (by decide)
        rw [none] at isUnsigned
        cases isUnsigned
      rw [Value.isNumber, List.contains_iff_mem, numberLengths, notSign, ← same]
      exact isUnsigned

/-- After a plus sign that is a part of a quantity there is that quantity without a sign. -/
theorem quantityAt?_of_plus (names : ∀ unit ∈ units, IsUnitName unit) {text : List Char}
    {reading : Reading} (found : quantityAt? units ('+' :: text) = some reading) :
    ∃ number, reading.number = '+' :: number ∧ number ≠ [] ∧
      quantityAt? units text = some ⟨number, reading.unit, reading.rest⟩ := by
  have member := List.mem_of_find?_eq_some found
  have ends : nameEnds reading.rest :=
    List.find?_some (p := fun reading : Reading => nameEnds reading.rest) found
  obtain ⟨isNumber, isUnit⟩ := isQuantity_of_mem_readings names member
  have same := (append_of_mem_readings member).2
  obtain ⟨c, number, isCons⟩ := List.exists_cons_of_ne_nil (nonempty_of_isNumber isNumber)
  rw [isCons, List.cons_append, List.cons_append, List.cons.injEq] at same
  obtain ⟨rfl, rfl⟩ := same
  rw [isCons] at isNumber
  have isQuantity : IsQuantity units number reading.unit := ⟨isNumber_of_plus isNumber, isUnit⟩
  exact ⟨number, isCons, nonempty_of_isNumber isQuantity.isNumber,
    isQuantity.quantityAt? names ends⟩

/-- A text is cut before a word that has nothing of a number, if nothing of a name is in front of
it, and after the word. -/
theorem pieces_name (names : ∀ unit ∈ units, IsUnitName unit) {before name : List Char} {c : Char}
    (notName : (lastAfter none before).any isNameChar = false)
    (noNumber : ∀ d ∈ name, isNumberChar d = false) (separates : isSeparator c)
    (rest : List Char) :
    pieces units (before ++ (name ++ c :: rest)) =
      pieces units before ++ (name.map Piece.plain ++ pieces units (c :: rest)) := by
  have notNumber := (notNumber_of_isSeparator separates).2
  have beginsNoNumber : BeginsNoNumber (name ++ c :: rest) := by
    cases name with
    | nil => exact beginsNoNumber_cons notNumber rest
    | cons d name => exact beginsNoNumber_cons (noNumber d List.mem_cons_self) _
  have apart : Apart (lastAfter none before) (name ++ c :: rest) := by
    intro x isLast y isHead
    rw [isLast] at notName
    exact .inl notName
  have ofName : pieces units (name ++ c :: rest) =
      name.map Piece.plain ++ pieces units (c :: rest) :=
    piecesAfter_letters noNumber none (beginsNoNumber_cons notNumber rest)
  rw [pieces, piecesAfter_cut names none beginsNoNumber apart, ofName, ← pieces]

/-- Blanks around a text stand around its pieces. -/
theorem pieces_between (names : ∀ unit ∈ units, IsUnitName unit) {left right : List Char}
    (leftBlank : ∀ c ∈ left, isBlank c) (rightBlank : ∀ c ∈ right, isBlank c) (text : List Char) :
    pieces units (left ++ text ++ right) =
      left.map Piece.plain ++ pieces units text ++ right.map Piece.plain := by
  have none : pieces units [] = [] := by
    rw [pieces, piecesAfter]
  have ofRight : ∀ text, pieces units (text ++ right) =
      pieces units text ++ right.map Piece.plain := by
    induction right with
    | nil => simp
    | cons c right inductionHypothesis =>
        intro text
        obtain ⟨blank, rightBlank⟩ := List.forall_mem_cons.mp rightBlank
        have ofBlanks := inductionHypothesis rightBlank []
        rw [none, List.nil_append, List.nil_append] at ofBlanks
        rw [pieces_separator names text (isSeparator_of_isBlank blank), ofBlanks, List.map_cons]
  rw [ofRight]
  congr 1
  induction left with
  | nil => rfl
  | cons c left inductionHypothesis =>
      obtain ⟨blank, leftBlank⟩ := List.forall_mem_cons.mp leftBlank
      have atBlank := pieces_separator names [] (isSeparator_of_isBlank blank) (left ++ text)
      rw [none, List.nil_append, List.nil_append] at atBlank
      rw [List.cons_append, atBlank, inductionHypothesis leftBlank, List.map_cons, List.cons_append]

/-- What is read as a quantity is one. -/
theorem isQuantity_of_mem_piecesAfter (names : ∀ unit ∈ units, IsUnitName unit)
    {previous : Option Char} {text number unit : List Char}
    (member : .quantity number unit ∈ piecesAfter units previous text) :
    IsQuantity units number unit := by
  fun_induction piecesAfter units previous text with
  | case1 => cases member
  | case2 previous c rest reading found inductionHypothesis =>
      rcases List.mem_cons.mp member with same | later
      · cases same
        obtain ⟨-, isFirst⟩ := Option.ite_none_right_eq_some.mp found
        exact isQuantity_of_mem_readings names (List.mem_of_find?_eq_some isFirst)
      · exact inductionHypothesis later
  | case3 previous c rest _ inductionHypothesis =>
      rcases List.mem_cons.mp member with same | later
      · cases same
      · exact inductionHypothesis later

/-! ## The same units in another order -/

theorem quantityAt?_of_subset {units' : List (List Char)} (names : ∀ unit ∈ units, IsUnitName unit)
    (names' : ∀ unit ∈ units', IsUnitName unit) (subset : units ⊆ units') {text : List Char}
    {reading : Reading} (found : quantityAt? units text = some reading) :
    quantityAt? units' text = some reading := by
  have member := List.mem_of_find?_eq_some found
  have ends : nameEnds reading.rest :=
    List.find?_some (p := fun reading : Reading => nameEnds reading.rest) found
  obtain ⟨isNumber, name, isName, whole⟩ := isQuantity_of_mem_readings names member
  have isQuantity : IsQuantity units' reading.number reading.unit :=
    ⟨isNumber, name, subset isName, whole⟩
  rw [← (append_of_mem_readings member).2]
  exact isQuantity.quantityAt? names' ends

/-- The order of the units does not matter to what is read. -/
theorem pieces_congr {units' : List (List Char)} (names : ∀ unit ∈ units, IsUnitName unit)
    (same : ∀ unit, unit ∈ units ↔ unit ∈ units') (text : List Char) :
    pieces units text = pieces units' text := by
  have names' : ∀ unit ∈ units', IsUnitName unit := fun unit isUnit =>
    names unit ((same unit).mpr isUnit)
  have sameQuantity : ∀ text, quantityAt? units text = quantityAt? units' text := by
    intro text
    cases found : quantityAt? units text with
    | some reading =>
        exact (quantityAt?_of_subset names names' (fun unit => (same unit).mp) found).symm
    | none =>
        cases found' : quantityAt? units' text with
        | none => rfl
        | some reading =>
            have isFound := quantityAt?_of_subset names' names (fun unit => (same unit).mpr) found'
            rw [found] at isFound
            cases isFound
  rw [pieces, pieces]
  fun_induction piecesAfter units none text with
  | case1 previous => rw [piecesAfter]
  | case2 previous c rest reading found inductionHypothesis =>
      have chosen := Option.ite_none_right_eq_some.mp found
      rw [piecesAfter_of_quantity chosen.1 ((sameQuantity _).symm.trans chosen.2),
        inductionHypothesis]
  | case3 previous c rest notFound inductionHypothesis =>
      rw [sameQuantity, dite_eq_ite] at notFound
      rw [piecesAfter_of_none notFound, inductionHypothesis]

/-! ## Units in use -/

/-- The units of the quantities of a text, in order. -/
def unitsOf (units : List (List Char)) (text : List Char) : List (List Char) :=
  (pieces units text).filterMap Piece.unit?

theorem filterMap_unit?_plain (text : List Char) :
    (text.map Piece.plain).filterMap Piece.unit? = [] := by
  rw [List.filterMap_map]
  exact List.filterMap_eq_nil_iff.mpr fun c _ => rfl

/-- A unit in use is one of the units, and its letters are in the text. -/
theorem isUnit_of_mem_unitsOf (names : ∀ unit ∈ units, IsUnitName unit)
    {text unit : List Char} (member : unit ∈ unitsOf units text) :
    (∃ name ∈ units, dropStartFolded? name unit = some []) ∧ unit ⊆ text := by
  obtain ⟨piece, isPiece, isUnit⟩ := List.mem_filterMap.mp member
  cases piece with
  | plain c => cases isUnit
  | quantity number unit' =>
      obtain rfl : unit' = unit := Option.some.inj isUnit
      refine ⟨(isQuantity_of_mem_piecesAfter names isPiece).isUnit, fun c inUnit => ?_⟩
      rw [← flatMap_text_piecesAfter units none text]
      exact List.mem_flatMap.mpr ⟨_, isPiece, List.mem_append_right number inUnit⟩

theorem unitsOf_separator (names : ∀ unit ∈ units, IsUnitName unit)
    (left : List Char) {c : Char} (separates : isSeparator c) (right : List Char) :
    unitsOf units (left ++ c :: right) = unitsOf units left ++ unitsOf units right := by
  rw [unitsOf, pieces_separator names left separates right, List.filterMap_append,
    List.filterMap_cons_none rfl]
  rfl

theorem unitsOf_nil (units : List (List Char)) : unitsOf units [] = [] := by
  rw [unitsOf, pieces, piecesAfter]
  rfl

theorem unitsOf_between (names : ∀ unit ∈ units, IsUnitName unit) {left right : List Char}
    (leftBlank : ∀ c ∈ left, isBlank c) (rightBlank : ∀ c ∈ right, isBlank c) (text : List Char) :
    unitsOf units (left ++ text ++ right) = unitsOf units text := by
  rw [unitsOf, pieces_between names leftBlank rightBlank, List.filterMap_append,
    List.filterMap_append, filterMap_unit?_plain, filterMap_unit?_plain, List.append_nil,
    List.nil_append, ← unitsOf]

theorem unitsOf_trim (names : ∀ unit ∈ units, IsUnitName unit) (text : List Char) :
    unitsOf units (trim text) = unitsOf units text := by
  obtain ⟨left, right, same, leftBlank, rightBlank⟩ := exists_append_trim text
  nth_rewrite 2 [same]
  exact (unitsOf_between names leftBlank rightBlank (trim text)).symm

theorem unitsOf_comma (names : ∀ unit ∈ units, IsUnitName unit) (parts : List (List Char)) :
    unitsOf units ([','].intercalate parts) = parts.flatMap (unitsOf units) := by
  induction parts with
  | nil => exact unitsOf_nil units
  | cons part parts inductionHypothesis =>
      cases parts with
      | nil => simp
      | cons later parts =>
          rw [List.intercalate_cons_cons, List.append_assoc, List.singleton_append,
            unitsOf_separator names part (by decide), inductionHypothesis]
          rfl

theorem unitsOf_name (names : ∀ unit ∈ units, IsUnitName unit) {before name : List Char} {c : Char}
    (notName : (lastAfter none before).any isNameChar = false)
    (noNumber : ∀ d ∈ name, isNumberChar d = false) (separates : isSeparator c)
    (rest : List Char) :
    unitsOf units (before ++ (name ++ c :: rest)) = unitsOf units before ++ unitsOf units rest := by
  have ofSeparator := unitsOf_separator names [] separates rest
  rw [unitsOf_nil, List.nil_append, List.nil_append] at ofSeparator
  rw [unitsOf, pieces_name names notName noNumber separates, List.filterMap_append,
    List.filterMap_append, filterMap_unit?_plain, List.nil_append]
  exact congrArg (unitsOf units before ++ ·) ofSeparator

/-- A quantity at the start of a text is in use. -/
theorem unitsOf_ne_nil (names : ∀ unit ∈ units, IsUnitName unit) {number unit rest : List Char}
    (isQuantity : IsQuantity units number unit) (ends : nameEnds rest) :
    unitsOf units (number ++ unit ++ rest) ≠ [] := by
  obtain ⟨c, number, rfl⟩ := List.exists_cons_of_ne_nil (nonempty_of_isNumber isQuantity.isNumber)
  have found := isQuantity.quantityAt? names ends
  rw [List.cons_append, List.cons_append] at found ⊢
  rw [unitsOf, pieces, piecesAfter_of_quantity rfl found]
  exact List.cons_ne_nil unit _

theorem unitsOf_foreign (names : ∀ unit ∈ units, IsUnitName unit)
    {number word : List Char} (areMarks : ∀ c ∈ number, isNumberChar c)
    (isWord : ∀ c ∈ word, isNameChar c ∧ isNumberChar c = false) (nonempty : word ≠ [])
    (foreign : ∀ name ∈ units, dropStartFolded? name word ≠ some []) :
    unitsOf units (number ++ word) = [] := by
  have ends : nameEnds [] := rfl
  have ofPieces := piecesAfter_foreign names areMarks isWord nonempty ends foreign none
  rw [List.append_nil] at ofPieces
  rw [unitsOf, pieces, ofPieces, piecesAfter, List.append_nil, filterMap_unit?_plain]

end Units

namespace Scheme

variable {scheme : Scheme}

/-- All units of the scheme are words of lower-case letters. -/
def HasNames (scheme : Scheme) : Prop :=
  ∀ unit ∈ scheme.names, IsUnitName unit

/-- Units are words in letters of ASCII, and what stands for what is written in place of one is a
word without anything of a number. -/
structure HasWords (scheme : Scheme) : Prop where
  hasNames : scheme.HasNames
  isWord {unit : List Char} (isUnit : ∃ name ∈ scheme.names, dropStartFolded? name unit = some []) :
    scheme.targetOf unit ≠ [] ∧
      ∀ c ∈ scheme.targetOf unit, isNameChar c ∧ isNumberChar c = false

/-! ## Swapping at a cut -/

/-- A text that stands after `previous` with the unit of every quantity swapped. -/
def swapAfter (scheme : Scheme) (previous : Option Char) (text : List Char) : List Char :=
  (piecesAfter scheme.names previous text).flatMap scheme.convertPiece

theorem flatMap_convertPiece_plain (text : List Char) :
    (text.map Piece.plain).flatMap scheme.convertPiece = text := by
  rw [List.flatMap_map]
  exact List.flatMap_singleton' text

theorem swapUnits_nil : scheme.swapUnits [] = [] := by
  rw [swapUnits, pieces, piecesAfter]
  rfl

theorem swapUnits_separator (hasNames : scheme.HasNames) (left : List Char) {c : Char}
    (separates : isSeparator c) (right : List Char) :
    scheme.swapUnits (left ++ c :: right) =
      scheme.swapUnits left ++ c :: scheme.swapUnits right := by
  simp [swapUnits, pieces_separator hasNames left separates right, convertPiece]

/-- A plus sign may belong to a quantity, but it stays where it is. -/
theorem swapAfter_plus (hasNames : scheme.HasNames) (previous : Option Char) (text : List Char) :
    scheme.swapAfter previous ('+' :: text) = '+' :: scheme.swapUnits text := by
  cases found : if quantityMayFollow previous then quantityAt? scheme.names ('+' :: text)
      else none with
  | none =>
      rw [swapAfter, piecesAfter_of_none found, piecesAfter_of_mayFollow (by decide)]
      rfl
  | some reading =>
      obtain ⟨mayFollow, isFirst⟩ := Option.ite_none_right_eq_some.mp found
      obtain ⟨number, isCons, nonempty, isSecond⟩ := quantityAt?_of_plus hasNames isFirst
      obtain ⟨c, text, rfl⟩ : ∃ c rest, text = c :: rest := by
        cases text with
        | nil => cases isSecond
        | cons c rest => exact ⟨c, rest, rfl⟩
      have sameLast : ('+' :: (number ++ reading.unit)).getLast? =
          (number ++ reading.unit).getLast? := by
        obtain ⟨d, number, rfl⟩ := List.exists_cons_of_ne_nil nonempty
        rfl
      rw [swapAfter, piecesAfter_of_quantity mayFollow isFirst, swapUnits, pieces,
        piecesAfter_of_quantity rfl isSecond, isCons, List.cons_append, sameLast]
      rfl

theorem swapUnits_plus (hasNames : scheme.HasNames) (left right : List Char) :
    scheme.swapUnits (left ++ '+' :: right) =
      scheme.swapUnits left ++ '+' :: scheme.swapUnits right := by
  have ends : EndsNumber ('+' :: right) := by
    rintro c isHead
    obtain rfl : '+' = c := Option.some.inj isHead
    decide
  rw [swapUnits, pieces, piecesAfter_append hasNames none ends (apart_cons (by decide) _ right),
    List.flatMap_append]
  exact congrArg (scheme.swapUnits left ++ ·) (swapAfter_plus hasNames _ right)

theorem swapUnits_comma (hasNames : scheme.HasNames) {parts : List (List Char)} :
    scheme.swapUnits ([','].intercalate parts) = [','].intercalate (parts.map scheme.swapUnits) := by
  induction parts with
  | nil => exact swapUnits_nil
  | cons part parts inductionHypothesis =>
      cases parts with
      | nil => simp
      | cons later parts =>
          rw [List.intercalate_cons_cons, List.append_assoc, List.singleton_append,
            swapUnits_separator hasNames part (by decide), inductionHypothesis, List.map_cons,
            List.map_cons, List.map_cons, List.intercalate_cons_cons, List.append_assoc,
            List.singleton_append]

/-- Blanks around a text stay around what it is converted to. -/
theorem swapUnits_between (hasNames : scheme.HasNames) {left right : List Char}
    (leftBlank : ∀ c ∈ left, isBlank c) (rightBlank : ∀ c ∈ right, isBlank c) (text : List Char) :
    scheme.swapUnits (left ++ text ++ right) = left ++ scheme.swapUnits text ++ right := by
  rw [swapUnits, pieces_between hasNames leftBlank rightBlank, List.flatMap_append,
    List.flatMap_append, flatMap_convertPiece_plain, flatMap_convertPiece_plain, ← swapUnits]

/-- Nothing is swapped in a word that has nothing of a number, if nothing of a name is in front
of it. -/
theorem swapUnits_name (hasNames : scheme.HasNames) {before name : List Char} {c : Char}
    (notName : (lastAfter none before).any isNameChar = false)
    (noNumber : ∀ d ∈ name, isNumberChar d = false) (separates : isSeparator c)
    (rest : List Char) :
    scheme.swapUnits (before ++ (name ++ c :: rest)) =
      scheme.swapUnits before ++ (name ++ c :: scheme.swapUnits rest) := by
  have ofSeparator : scheme.swapUnits (c :: rest) = c :: scheme.swapUnits rest := by
    have cut := swapUnits_separator hasNames [] separates rest
    rwa [List.nil_append, swapUnits_nil, List.nil_append] at cut
  rw [swapUnits, pieces_name hasNames notName noNumber separates, List.flatMap_append,
    List.flatMap_append, flatMap_convertPiece_plain]
  exact congrArg (fun swapped => scheme.swapUnits before ++ (name ++ swapped)) ofSeparator

/-! ## Swapping single quantities -/

theorem swapUnits_quantity (hasNames : scheme.HasNames) {number unit : List Char}
    (isQuantity : IsQuantity scheme.names number unit) :
    scheme.swapUnits (number ++ unit) = number ++ scheme.targetOf unit := by
  have ends : nameEnds [] := rfl
  have found := isQuantity.quantityAt? hasNames ends
  obtain ⟨c, number, rfl⟩ := List.exists_cons_of_ne_nil (nonempty_of_isNumber isQuantity.isNumber)
  rw [List.append_nil, List.cons_append] at found
  rw [List.cons_append, swapUnits, pieces, piecesAfter_of_quantity rfl found, piecesAfter]
  exact List.append_nil _

theorem swapUnits_of_unitsOf {text : List Char} (noUnits : unitsOf scheme.names text = []) :
    scheme.swapUnits text = text := by
  nth_rewrite 2 [← flatMap_text_piecesAfter scheme.names none text]
  refine List.flatMap_congr fun piece member => ?_
  have noUnit := List.filterMap_eq_nil_iff.mp noUnits piece member
  cases piece with
  | plain c => rfl
  | quantity number unit => cases noUnit

end Scheme

end Value

end ContainerPreview
