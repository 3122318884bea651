import ContainerPreview.Css.Printer
import ContainerPreview.Css.Scanner
import ContainerPreview.Proofs.Text.Ascii
import Mathlib.Tactic.SplitIfs

/-!
# Names in a text

A name is read up to the first character that can neither stand in a name nor begin an escape.
A character that cannot stand in a name as it is, is written as an escape that stands for it, so
a written identifier begins in a way in which only identifiers begin.
-/

namespace ContainerPreview.Css

open Text

/-! ## Where names go on -/

/-- A name goes on with this text. -/
def continuesName (text : List Char) : Bool :=
  text.head?.any isInName || startsEscape text

@[simp]
theorem continuesName_nil : continuesName [] = false :=
  rfl

theorem continuesName_of_isInName {c : Char} (inName : isInName c) (rest : List Char) :
    continuesName (c :: rest) := by
  simp [continuesName, inName]

theorem nameAt_of_not_continuesName {text : List Char} (ends : continuesName text = false) :
    nameAt text = ([], 0) := by
  cases text with
  | nil => rw [nameAt]
  | cons c rest =>
      simp only [continuesName, List.head?_cons, Option.any_some, Bool.or_eq_false_iff] at ends
      rw [nameAt, ends.1, ends.2]
      rfl

theorem nameAt_cons_of_isInName {c : Char} (inName : isInName c) (rest : List Char) :
    nameAt (c :: rest) = (c :: (nameAt rest).1, (nameAt rest).2 + 1) := by
  rw [nameAt, if_pos inName]

/-- A name is read as far as it goes. -/
theorem not_continuesName_drop_nameAt (text : List Char) :
    continuesName (text.drop (nameAt text).2) = false := by
  fun_induction nameAt text with
  | case1 => rfl
  | case2 c rest inName name length isName inductionHypothesis =>
      rw [isName] at inductionHypothesis
      exact inductionHypothesis
  | case3 c rest notInName escapes escaped taken isEscape name length isName inductionHypothesis =>
      rw [isName] at inductionHypothesis
      rwa [List.drop_succ_cons, ← List.drop_drop]
  | case4 c rest notInName noEscape =>
      simp only [List.drop_zero, continuesName, List.head?_cons, Option.any_some,
        Bool.or_eq_false_iff]
      exact ⟨by simpa using notInName, by simpa using noEscape⟩

/-! ## Escapes -/

theorem startsEscape_backslash {c : Char} (notLine : c ≠ '\n') (rest : List Char) :
    startsEscape ('\\' :: c :: rest) := by
  unfold startsEscape
  split <;> simp_all

/-- A text that is read as an escape of a character, whatever follows it. -/
inductive EscapeOf (c : Char) : List Char → Prop where
  | intro (first : Char) (more : List Char) (notLine : first ≠ '\n')
      (isEscape : ∀ rest, escapeAt (first :: (more ++ rest)) = (c, more.length + 1)) :
      EscapeOf c ('\\' :: first :: more)

theorem EscapeOf.startsEscape {c : Char} {written : List Char} (escape : EscapeOf c written)
    (rest : List Char) : startsEscape (written ++ rest) := by
  obtain ⟨first, more, notLine, -⟩ := escape
  exact startsEscape_backslash notLine (more ++ rest)

theorem escapeAt_of_not_isHex {c : Char} (notHex : isHex c = false) (rest : List Char) :
    escapeAt (c :: rest) = (c, 1) := by
  simp [escapeAt, List.take_succ_cons, notHex]

/-- A character that is no digit is escaped by itself, unless it is a line end. -/
theorem escapeOf_backslash {c : Char} (notHex : isHex c = false) (notLine : c ≠ '\n') :
    EscapeOf c ['\\', c] :=
  .intro c [] notLine fun rest => escapeAt_of_not_isHex notHex rest

theorem toNat_of_isHex {c : Char} (hex : isHex c) : c.toNat < 128 := by
  simp only [isHex, Char.isDigit, Bool.or_eq_true, Bool.and_eq_true, decide_eq_true_eq,
    Char.le_def, UInt32.le_iff_toNat_le, ge_iff_le, Char.reduceVal, UInt32.reduceToNat] at hex
  have isNat : c.toNat = c.val.toNat := rfl
  omega

theorem isInName_of_isHex {c : Char} (hex : isHex c) : isInName c :=
  forall_ascii (fun c => isHex c → isInName c) (by decide) (toNat_of_isHex hex) hex

theorem isHex_of_isDigit {c : Char} (digit : c.isDigit) : isHex c := by
  simp [isHex, digit]

/-- As many as six digits are read up to where they end. -/
theorem takeWhile_isHex_append {digits rest : List Char} (areHex : ∀ c ∈ digits, isHex c)
    (short : digits.length ≤ 6) (ends : ∀ c ∈ rest.head?, isHex c = false) :
    ((digits ++ rest).take 6).takeWhile isHex = digits := by
  rw [List.take_append, List.take_of_length_le short, List.takeWhile_append_of_pos areHex]
  cases rest with
  | nil => simp
  | cons c rest =>
      cases 6 - digits.length with
      | zero => simp
      | succ left => simp [ends c rfl]

/-- Digits and a blank stand for the character with that code. -/
theorem escapeAt_digits (digits : List Char) (areHex : ∀ c ∈ digits, isHex c)
    (nonempty : digits ≠ []) (short : digits.length ≤ 6) (rest : List Char) :
    escapeAt (digits ++ ' ' :: rest) = (charOfCode (hexNumber digits), digits.length + 1) := by
  have areDigits : ((digits ++ ' ' :: rest).take 6).takeWhile isHex = digits :=
    takeWhile_isHex_append areHex short (by simp; decide)
  simp only [escapeAt, areDigits, List.isEmpty_eq_false_iff.mpr nonempty, List.drop_left]
  rfl

theorem escapeOf_escapeLineEnd {c : Char} {written : List Char}
    (isEscape : escapeLineEnd? c = some written) : EscapeOf c written := by
  simp only [escapeLineEnd?, beq_iff_eq] at isEscape
  split_ifs at isEscape with line carriage feed
  all_goals obtain rfl := Option.some.inj isEscape
  · subst line
    exact .intro 'A' [' '] (by decide) (escapeAt_digits ['A'] (by decide) (by simp) (by decide))
  · subst carriage
    exact .intro 'D' [' '] (by decide) (escapeAt_digits ['D'] (by decide) (by simp) (by decide))
  · subst feed
    exact .intro 'C' [' '] (by decide) (escapeAt_digits ['C'] (by decide) (by simp) (by decide))

theorem escapeOf_digit {c : Char} (digit : c.isDigit) : EscapeOf c ['\\', '3', c, ' '] := by
  have hex := isHex_of_isDigit digit
  have isCode := forall_ascii (fun c => c.isDigit → charOfCode (hexNumber ['3', c]) = c)
    (by decide) (toNat_of_isHex hex) digit
  have isEscape := escapeAt_digits ['3', c] (by simpa using ⟨rfl, hex⟩) (by simp) (by simp)
  rw [isCode] at isEscape
  exact .intro '3' [c, ' '] (by decide) isEscape

/-! ## Written characters -/

theorem escapeOf_escaped {c : Char} (notInName : isInName c = false) :
    EscapeOf c ((escapeLineEnd? c).getD ['\\', c]) := by
  cases isEscape : escapeLineEnd? c with
  | some written => exact escapeOf_escapeLineEnd isEscape
  | none =>
      refine escapeOf_backslash ?_ ?_
      · cases hex : isHex c with
        | false => rfl
        | true => rw [isInName_of_isHex hex] at notInName; cases notInName
      · rintro rfl
        cases isEscape

theorem escapeOf_writeFirst {c : Char} (notPlain : isPlainStart c = false) :
    EscapeOf c (writeFirst c) := by
  rw [writeFirst, if_neg (by simp [notPlain])]
  split_ifs with digit
  · exact escapeOf_digit digit
  · by_cases hyphen : c = '-'
    · subst hyphen
      exact escapeOf_backslash rfl (by decide)
    · have notStart : startsName c = false := notPlain
      exact escapeOf_escaped (by simp [isInName, notStart, digit, hyphen])

/-! ## Written identifiers -/

theorem startsIdent_of_startsEscape {text : List Char} (escapes : startsEscape text) :
    startsIdent text := by
  unfold startsEscape at escapes
  split at escapes
  · cases escapes
  · rename_i rest notLine
    have starts : startsEscape ('\\' :: rest) := by
      unfold startsEscape
      split <;> simp_all
    rw [startsIdent, starts, Bool.or_true]
    decide
  · cases escapes

theorem startsIdent_of_startsName {c : Char} (starts : startsName c) (rest : List Char) :
    startsIdent (c :: rest) := by
  have notHyphen : c ≠ '-' := by
    rintro rfl
    cases starts
  unfold startsIdent
  split <;> simp_all

theorem startsIdent_writeStart {name : List Char} (nonempty : name ≠ []) (rest : List Char) :
    startsIdent (writeStart name ++ rest) ∧ startsIdent ('-' :: (writeStart name ++ rest)) := by
  cases name with
  | nil => exact absurd rfl nonempty
  | cons c name =>
      rw [writeStart, List.append_assoc]
      generalize writeName name ++ rest = rest
      cases plain : isPlainStart c with
      | true =>
          have starts : startsName c := plain
          rw [writeFirst, if_pos plain]
          exact ⟨startsIdent_of_startsName starts rest, by simp [startsIdent, starts]⟩
      | false =>
          have escapes := (escapeOf_writeFirst plain).startsEscape rest
          exact ⟨startsIdent_of_startsEscape escapes, by simp [startsIdent, escapes]⟩

/-- A written identifier is read as one. -/
theorem startsIdent_writeIdent {name : List Char} (nonempty : name ≠ []) (rest : List Char) :
    startsIdent (writeIdent name ++ rest) := by
  unfold writeIdent
  split
  · exact startsIdent_of_startsEscape (startsEscape_backslash (by decide) rest)
  · rfl
  · rename_i name notAlone _
    exact (startsIdent_writeStart notAlone rest).2
  · exact (startsIdent_writeStart nonempty rest).1

end ContainerPreview.Css
