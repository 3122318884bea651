import ContainerPreview.Css.Printer
import ContainerPreview.Css.Scanner
import Mathlib.Data.List.TakeWhile

/-!
# Numbers in a text

A number is an optional sign, digits with an optional point, and an optional exponent.  It is
read up to where none of these can go on, so what follows a number does not matter as long as
it does not go on with one.
-/

namespace ContainerPreview.Css

/-! ## Digits -/

theorem digitCount_append {digits rest : List Char} (areDigits : ∀ c ∈ digits, c.isDigit)
    (ends : ∀ c ∈ rest.head?, c.isDigit = false) : digitCount (digits ++ rest) = digits.length := by
  rw [digitCount, List.takeWhile_append_of_pos areDigits]
  cases rest with
  | nil => simp
  | cons c rest => simp [ends c rfl]

/-- A text is the digits that it starts with, and a rest that starts with none. -/
theorem exists_digits (text : List Char) :
    ∃ digits rest, text = digits ++ rest ∧ (∀ c ∈ digits, c.isDigit) ∧
      (∀ c ∈ rest.head?, c.isDigit = false) ∧ digitCount text = digits.length := by
  refine ⟨text.takeWhile Char.isDigit, text.dropWhile Char.isDigit,
    List.takeWhile_append_dropWhile.symm, fun c member => List.mem_takeWhile_imp member, ?_, rfl⟩
  intro c isHead
  have notDigit := List.head?_dropWhile_not Char.isDigit text
  rw [isHead] at notDigit
  exact notDigit

/-! ## Parts of a number -/

/-- A sign that a number or an exponent may have. -/
def IsSign (text : List Char) : Prop :=
  text = [] ∨ text = ['+'] ∨ text = ['-']

/-- The exponent of a number. -/
def IsExponent (text : List Char) : Prop :=
  text = [] ∨ ∃ e sign digits, text = e :: (sign ++ digits) ∧ (e = 'e' ∨ e = 'E') ∧ IsSign sign ∧
    digits ≠ [] ∧ ∀ c ∈ digits, c.isDigit

/-- The point of a number and the digits after it. -/
def IsFraction (text : List Char) : Prop :=
  text = [] ∨ ∃ digits, text = '.' :: digits ∧ digits ≠ [] ∧ ∀ c ∈ digits, c.isDigit

/-- A number in its parts. -/
structure NumberParts where
  sign : List Char
  whole : List Char
  fraction : List Char
  exponent : List Char
  isSign : IsSign sign
  areDigits : ∀ c ∈ whole, c.isDigit
  isFraction : IsFraction fraction
  isExponent : IsExponent exponent
  nonempty : whole ≠ [] ∨ fraction ≠ []

namespace NumberParts

/-- The parts put together. -/
def text (parts : NumberParts) : List Char :=
  parts.sign ++ (parts.whole ++ (parts.fraction ++ parts.exponent))

/-- A text does not go on with the number. -/
structure Ends (parts : NumberParts) (rest : List Char) : Prop where
  noDigit : ∀ c ∈ rest.head?, c.isDigit = false
  noFraction : parts.fraction = [] → parts.exponent = [] →
    ∀ after, rest = '.' :: after → ∀ c ∈ after.head?, c.isDigit = false
  noExponent : parts.exponent = [] → exponentLength rest = 0

end NumberParts

/-- Whether a text starts with a sign. -/
def startsWithSign (text : List Char) : Bool :=
  text.head?.any fun c => c == '+' || c == '-'

theorem exists_sign (text : List Char) :
    ∃ sign rest, text = sign ++ rest ∧ IsSign sign ∧
      (if startsWithSign text then 1 else 0) = sign.length ∧
        (sign = [] → startsWithSign rest = false) := by
  cases signed : startsWithSign text with
  | false => exact ⟨[], text, rfl, .inl rfl, rfl, fun _ => signed⟩
  | true =>
      cases text with
      | nil => cases signed
      | cons c rest =>
          have isSign : c = '+' ∨ c = '-' := by simpa [startsWithSign] using signed
          refine ⟨[c], rest, rfl, ?_, rfl, nofun⟩
          rcases isSign with rfl | rfl
          · exact .inr (.inl rfl)
          · exact .inr (.inr rfl)

theorem startsWithSign_append {sign rest : List Char} (isSign : IsSign sign)
    (unsigned : sign = [] → startsWithSign rest = false) :
    (if startsWithSign (sign ++ rest) then 1 else 0) = sign.length := by
  rcases isSign with rfl | rfl | rfl
  · rw [List.nil_append, unsigned rfl]
    rfl
  · rfl
  · rfl

theorem not_sign_of_isDigit {c : Char} (isDigit : c.isDigit) :
    (c == '+' || c == '-') = false ∧ c ≠ '.' ∧ c ≠ 'e' ∧ c ≠ 'E' := by
  refine ⟨?_, ?_, ?_, ?_⟩
  · rw [Bool.or_eq_false_iff, beq_eq_false_iff_ne, beq_eq_false_iff_ne]
    constructor <;> (rintro rfl; revert isDigit; decide)
  all_goals (rintro rfl; revert isDigit; decide)

theorem unsigned_of_digits {digits rest : List Char} (areDigits : ∀ c ∈ digits, c.isDigit)
    (nonempty : digits ≠ []) : startsWithSign (digits ++ rest) = false := by
  obtain ⟨c, digits, rfl⟩ := List.exists_cons_of_ne_nil nonempty
  have notSign := (not_sign_of_isDigit (areDigits c List.mem_cons_self)).1
  simpa [startsWithSign] using notSign

theorem exponentLength_cons (e : Char) (text : List Char) :
    exponentLength (e :: text) =
      if e == 'e' || e == 'E' then
        (if digitCount (text.drop (if startsWithSign text then 1 else 0)) == 0 then 0
          else 1 + (if startsWithSign text then 1 else 0) +
            digitCount (text.drop (if startsWithSign text then 1 else 0)))
      else 0 :=
  rfl

/-- An exponent is read up to where its digits end. -/
theorem exponentLength_append {exponent rest : List Char} (isExponent : IsExponent exponent)
    (nonempty : exponent ≠ []) (ends : ∀ c ∈ rest.head?, c.isDigit = false) :
    exponentLength (exponent ++ rest) = exponent.length := by
  obtain ⟨e, sign, digits, rfl, isE, isSign, digitsNonempty, areDigits⟩ :=
    isExponent.resolve_left nonempty
  have isE : (e == 'e' || e == 'E') = true := by simpa using isE
  have signed : (if startsWithSign (sign ++ (digits ++ rest)) then 1 else 0) = sign.length :=
    startsWithSign_append isSign fun _ => unsigned_of_digits areDigits digitsNonempty
  rw [List.cons_append, List.append_assoc, exponentLength_cons, if_pos isE, signed, List.drop_left,
    digitCount_append areDigits ends]
  have positive : digits.length ≠ 0 := by simpa using digitsNonempty
  simp only [beq_iff_eq, positive, if_false, List.length_cons, List.length_append]
  omega

/-- A text starts with the exponent that is read from it. -/
theorem exists_exponent (text : List Char) :
    ∃ exponent rest, text = exponent ++ rest ∧ IsExponent exponent ∧
      exponentLength text = exponent.length ∧
        (exponent ≠ [] → ∀ c ∈ rest.head?, c.isDigit = false) ∧
          (exponent = [] → exponentLength rest = 0) := by
  have none : exponentLength text = 0 →
      ∃ exponent rest, text = exponent ++ rest ∧ IsExponent exponent ∧
        exponentLength text = exponent.length ∧
          (exponent ≠ [] → ∀ c ∈ rest.head?, c.isDigit = false) ∧
            (exponent = [] → exponentLength rest = 0) :=
    fun isZero => ⟨[], text, rfl, .inl rfl, isZero, fun present => absurd rfl present,
      fun _ => isZero⟩
  cases text with
  | nil => exact none rfl
  | cons e text =>
      by_cases isE : e = 'e' ∨ e = 'E'
      · obtain ⟨sign, afterSign, rfl, isSign, signed, -⟩ := exists_sign text
        obtain ⟨digits, rest, rfl, areDigits, ends, isCount⟩ := exists_digits afterSign
        by_cases present : digits = []
        · refine none ?_
          rw [exponentLength_cons, signed, List.drop_left, isCount, present]
          simp
        · have isExponent : IsExponent (e :: (sign ++ digits)) :=
            .inr ⟨e, sign, digits, rfl, isE, isSign, present, areDigits⟩
          refine ⟨e :: (sign ++ digits), rest, by simp, isExponent, ?_, fun _ => ends, nofun⟩
          have whole := exponentLength_append isExponent (List.cons_ne_nil _ _) ends
          rwa [List.cons_append, List.append_assoc] at whole
      · refine none ?_
        rw [exponentLength_cons, if_neg (by simpa using isE)]

/-! ## Numbers -/

/-- How many digits follow the point that a text starts with. -/
def fractionCount (text : List Char) : Nat :=
  match text with
  | '.' :: rest => digitCount rest
  | _ => 0

theorem fractionCount_eq_zero {text : List Char}
    (noFraction : ∀ after, text = '.' :: after → ∀ c ∈ after.head?, c.isDigit = false) :
    fractionCount text = 0 := by
  unfold fractionCount
  split
  · rename_i after
    exact digitCount_append (List.forall_mem_nil _) (noFraction after rfl)
  · rfl

/-- The length of a number, given its sign and the digits before its point. -/
theorem numberLength?_append {sign whole rest : List Char} (isSign : IsSign sign)
    (areDigits : ∀ c ∈ whole, c.isDigit) (ends : ∀ c ∈ rest.head?, c.isDigit = false)
    (unsigned : sign = [] → startsWithSign (whole ++ rest) = false) :
    numberLength? (sign ++ (whole ++ rest)) =
      (let mantissa := if fractionCount rest == 0 then whole.length
        else whole.length + 1 + fractionCount rest
      if mantissa == 0 then none
      else some (sign.length + mantissa +
        exponentLength ((whole ++ rest).drop mantissa))) := by
  have signed := startsWithSign_append isSign unsigned
  have isEq : numberLength? (sign ++ (whole ++ rest)) =
      (let sign' := if startsWithSign (sign ++ (whole ++ rest)) then 1 else 0
      let whole' := digitCount ((sign ++ (whole ++ rest)).drop sign')
      let fraction := fractionCount ((sign ++ (whole ++ rest)).drop (sign' + whole'))
      let mantissa := if fraction == 0 then whole' else whole' + 1 + fraction
      if mantissa == 0 then none
      else some (sign' + mantissa +
        exponentLength ((sign ++ (whole ++ rest)).drop (sign' + mantissa)))) := rfl
  rw [isEq, signed]
  simp only [List.drop_left, digitCount_append areDigits ends, ← List.drop_drop]

theorem startsWithSign_rest {whole fraction rest : List Char} (areDigits : ∀ c ∈ whole, c.isDigit)
    (isFraction : IsFraction fraction) (nonempty : whole ≠ [] ∨ fraction ≠ []) :
    startsWithSign (whole ++ (fraction ++ rest)) = false := by
  by_cases present : whole = []
  · subst present
    obtain ⟨digits, rfl, -⟩ := isFraction.resolve_left (nonempty.resolve_left (by simp))
    rfl
  · exact unsigned_of_digits areDigits present

namespace NumberParts

theorem head_exponent {parts : NumberParts} {rest : List Char} (ends : parts.Ends rest) :
    ∀ c ∈ (parts.exponent ++ rest).head?, c.isDigit = false := by
  intro c isHead
  rcases parts.isExponent with none | ⟨e, sign, digits, isText, isE, -⟩
  · rw [none, List.nil_append] at isHead
    exact ends.noDigit c isHead
  · rw [isText] at isHead
    obtain rfl : e = c := Option.some.inj isHead
    rcases isE with rfl | rfl <;> decide

theorem exponentLength_rest {parts : NumberParts} {rest : List Char} (ends : parts.Ends rest) :
    exponentLength (parts.exponent ++ rest) = parts.exponent.length := by
  by_cases present : parts.exponent = []
  · rw [present, List.nil_append, ends.noExponent present]
    rfl
  · exact exponentLength_append parts.isExponent present ends.noDigit

/-- A number is read up to where it ends. -/
theorem numberLength? {parts : NumberParts} {rest : List Char} (ends : parts.Ends rest) :
    numberLength? (parts.text ++ rest) = some parts.text.length := by
  have noDigit := head_exponent ends
  have ofExponent := exponentLength_rest ends
  have unsigned : parts.sign = [] →
      startsWithSign (parts.whole ++ (parts.fraction ++ (parts.exponent ++ rest))) = false :=
    fun _ => startsWithSign_rest parts.areDigits parts.isFraction parts.nonempty
  simp only [text, List.append_assoc, List.length_append]
  rcases parts.isFraction with none | ⟨digits, isText, digitsNonempty, areFraction⟩
  · have isZero : fractionCount (parts.exponent ++ rest) = 0 :=
      fractionCount_eq_zero fun after isText => by
        rcases parts.isExponent with noExponent | ⟨e, _, _, isExponent, isE, -⟩
        · rw [noExponent] at isText
          exact ends.noFraction none noExponent after isText
        · rw [isExponent] at isText
          obtain rfl : e = '.' := (List.cons.inj isText).1
          simp at isE
    have positive : parts.whole.length ≠ 0 := by simpa [none] using parts.nonempty
    rw [none, List.nil_append] at unsigned ⊢
    rw [numberLength?_append parts.isSign parts.areDigits noDigit unsigned, isZero]
    simp only [beq_self_eq_true, if_true, beq_iff_eq, positive, if_false, List.drop_left,
      ofExponent, List.length_nil]
    congr 1
    omega
  · have isCount : fractionCount ('.' :: digits ++ (parts.exponent ++ rest)) = digits.length :=
      digitCount_append areFraction noDigit
    have positive : digits.length ≠ 0 := by simpa using digitsNonempty
    have dropped : (parts.whole ++ ('.' :: digits ++ (parts.exponent ++ rest))).drop
        (parts.whole.length + 1 + digits.length) = parts.exponent ++ rest := by
      have isLength : 1 + digits.length = ('.' :: digits).length := by
        rw [List.length_cons, Nat.add_comm]
      rw [Nat.add_assoc, ← List.drop_drop, List.drop_left, isLength, List.drop_left]
    rw [isText] at unsigned ⊢
    rw [numberLength?_append parts.isSign parts.areDigits (by simp) unsigned, isCount]
    simp only [beq_iff_eq, positive, if_false, dropped, ofExponent]
    rw [if_neg (by omega)]
    simp only [List.length_cons]
    congr 1
    omega

end NumberParts

theorem noDigit_of_digitCount {text : List Char} (none : digitCount text = 0) :
    ∀ c ∈ text.head?, c.isDigit = false := by
  obtain ⟨digits, rest, rfl, -, ends, isCount⟩ := exists_digits text
  rw [isCount, List.length_eq_zero_iff] at none
  rw [none]
  exact ends

/-- What is read as a number is one, and ends where it does. -/
theorem exists_numberParts {text : List Char} {length : Nat}
    (isNumber : numberLength? text = some length) :
    ∃ (parts : NumberParts) (rest : List Char), text = parts.text ++ rest ∧ parts.Ends rest ∧
      length = parts.text.length := by
  have ofParts : ∀ (parts : NumberParts) (rest : List Char), text = parts.text ++ rest →
      parts.Ends rest → ∃ (parts : NumberParts) (rest : List Char), text = parts.text ++ rest ∧
        parts.Ends rest ∧ length = parts.text.length := fun parts rest isText ends => by
    refine ⟨parts, rest, isText, ends, ?_⟩
    rw [isText, NumberParts.numberLength? ends] at isNumber
    exact (Option.some.inj isNumber).symm
  obtain ⟨sign, unsignedText, rfl, isSign, -, unsigned⟩ := exists_sign text
  obtain ⟨whole, afterWhole, rfl, areDigits, noDigit, -⟩ := exists_digits unsignedText
  have isEq := numberLength?_append isSign areDigits noDigit unsigned
  rw [isNumber] at isEq
  by_cases isZero : fractionCount afterWhole = 0
  · rw [isZero] at isEq
    have nonempty : whole ≠ [] := by
      rintro rfl
      simp at isEq
    obtain ⟨exponent, rest, rfl, isExponent, -, noDigitAfter, noExponent⟩ :=
      exists_exponent afterWhole
    refine ofParts ⟨sign, whole, [], exponent, isSign, areDigits, .inl rfl, isExponent,
      .inl nonempty⟩ rest (by simp [NumberParts.text]) ⟨?_, ?_, noExponent⟩
    · by_cases present : exponent = []
      · rwa [present] at noDigit
      · exact noDigitAfter present
    · rintro - isNone after rfl
      rw [show exponent = [] from isNone, List.nil_append] at isZero
      exact noDigit_of_digitCount isZero
  · obtain ⟨after, rfl⟩ : ∃ after, afterWhole = '.' :: after := by
      unfold fractionCount at isZero
      split at isZero
      · exact ⟨_, rfl⟩
      · exact absurd rfl isZero
    obtain ⟨digits, afterDigits, rfl, areFraction, noDigitAfter, isCount⟩ := exists_digits after
    have nonempty : digits ≠ [] := by
      rintro rfl
      exact isZero isCount
    obtain ⟨exponent, rest, rfl, isExponent, -, noDigitLast, noExponent⟩ :=
      exists_exponent afterDigits
    refine ofParts ⟨sign, whole, '.' :: digits, exponent, isSign, areDigits,
      .inr ⟨digits, rfl, nonempty, areFraction⟩, isExponent, .inr (List.cons_ne_nil _ _)⟩ rest
      (by simp [NumberParts.text]) ⟨?_, nofun, noExponent⟩
    by_cases present : exponent = []
    · rwa [present] at noDigitAfter
    · exact noDigitLast present

/-- A character of a number without a point and without an exponent. -/
def isWholeChar (c : Char) : Bool :=
  c.isDigit || c == '+' || c == '-'

/-- A character that begins an exponent. -/
def isExponentMark (c : Char) : Bool :=
  c == 'e' || c == 'E'

namespace NumberParts

variable (parts : NumberParts)

theorem all_isWholeChar (noFraction : parts.fraction = []) (noExponent : parts.exponent = []) :
    parts.text.all isWholeChar := by
  rw [text, noFraction, noExponent, List.append_nil, List.append_nil, List.all_append,
    Bool.and_eq_true]
  constructor
  · rcases parts.isSign with same | same | same <;> rw [same] <;> decide
  · exact List.all_eq_true.mpr fun c member => by simp [isWholeChar, parts.areDigits c member]

theorem eq_nil_of_all_isWholeChar (whole : parts.text.all isWholeChar) :
    parts.fraction = [] ∧ parts.exponent = [] := by
  simp only [text, List.all_append, Bool.and_eq_true] at whole
  obtain ⟨-, -, ofFraction, ofExponent⟩ := whole
  constructor
  · refine parts.isFraction.resolve_right ?_
    rintro ⟨digits, isText, -⟩
    rw [isText, List.all_cons] at ofFraction
    cases ofFraction
  · refine parts.isExponent.resolve_right ?_
    rintro ⟨e, sign, digits, isText, isE, -⟩
    have notWhole : isWholeChar e = false := by rcases isE with rfl | rfl <;> decide
    rw [isText, List.all_cons, notWhole] at ofExponent
    cases ofExponent

theorem not_isExponentMark (noExponent : parts.exponent = []) :
    parts.text.any isExponentMark = false := by
  have ofDigits : ∀ {digits : List Char}, (∀ c ∈ digits, c.isDigit) →
      digits.any isExponentMark = false := fun areDigits =>
    List.any_eq_false.mpr fun c member => by
      obtain ⟨-, -, notLower, notUpper⟩ := not_sign_of_isDigit (areDigits c member)
      simp [isExponentMark, notLower, notUpper]
  have ofSign : parts.sign.any isExponentMark = false := by
    rcases parts.isSign with same | same | same <;> rw [same] <;> decide
  have ofFraction : parts.fraction.any isExponentMark = false := by
    rcases parts.isFraction with same | ⟨digits, same, -, areDigits⟩
    · rw [same]
      rfl
    · rw [same, List.any_cons, ofDigits areDigits]
      decide
  rw [text, noExponent, List.append_nil, List.any_append, List.any_append, ofSign, ofFraction,
    ofDigits parts.areDigits]
  rfl

end NumberParts

section Local

variable {number rest : List Char}

theorem exists_ends (isNumber : numberLength? (number ++ rest) = some number.length) :
    ∃ parts : NumberParts, parts.text = number ∧ parts.Ends rest := by
  obtain ⟨parts, after, isText, ends, sameLength⟩ := exists_numberParts isNumber
  obtain ⟨rfl, rfl⟩ := List.append_inj isText sameLength
  exact ⟨parts, rfl, ends⟩

theorem number_ne_nil (isNumber : numberLength? (number ++ rest) = some number.length) :
    number ≠ [] := by
  obtain ⟨parts, rfl, -⟩ := exists_ends isNumber
  intro none
  simp only [NumberParts.text, List.append_eq_nil_iff] at none
  exact parts.nonempty.elim (fun present => present none.2.1) fun present => present none.2.2.1

/-- A number does not go on after it has been read. -/
theorem noDigit_of_numberLength? (isNumber : numberLength? (number ++ rest) = some number.length) :
    (∀ c ∈ rest.head?, c.isDigit = false) ∧
      (number.all isWholeChar → ∀ after, rest = '.' :: after → ∀ c ∈ after.head?, c.isDigit = false) := by
  obtain ⟨parts, rfl, ends⟩ := exists_ends isNumber
  refine ⟨ends.noDigit, fun whole => ?_⟩
  obtain ⟨noFraction, noExponent⟩ := parts.eq_nil_of_all_isWholeChar whole
  exact ends.noFraction noFraction noExponent

/-- What follows a number does not matter unless the number can go on with it. -/
theorem numberLength?_congr (rest' : List Char)
    (isNumber : numberLength? (number ++ rest) = some number.length)
    (noDigit : ∀ c ∈ rest'.head?, c.isDigit = false)
    (noFraction : number.all isWholeChar →
      ∀ after, rest' = '.' :: after → ∀ c ∈ after.head?, c.isDigit = false)
    (noExponent : number.any isExponentMark = false → exponentLength rest' = 0) :
    numberLength? (number ++ rest') = some number.length := by
  obtain ⟨parts, rfl, -⟩ := exists_ends isNumber
  exact NumberParts.numberLength? ⟨noDigit,
    fun isWhole isEnd => noFraction (parts.all_isWholeChar isWhole isEnd),
    fun isEnd => noExponent (parts.not_isExponentMark isEnd)⟩

end Local

end ContainerPreview.Css
