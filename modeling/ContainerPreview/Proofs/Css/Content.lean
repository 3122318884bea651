import ContainerPreview.Proofs.Css.Name
import Mathlib.Data.List.TakeWhile
import Mathlib.Data.Nat.Digits.Lemmas

/-!
# Strings, comments, addresses and ranges of code points

What is written for one of these is read as the same again, as long as a range of code points
does not go on after its digits.  For strings this is so whatever they hold; the text of a
comment or of an address is one that has been read.
-/

namespace ContainerPreview.Css

open Text

/-- A character that making line ends uniform leaves as it is. -/
def isTidy (c : Char) : Bool :=
  c != '\x00' && c != '\r' && c != '\x0c'

/-! ## Line ends -/

theorem all_isTidy_preprocess (text : List Char) : (preprocess text).all isTidy := by
  fun_induction preprocess text with
  | case1 => rfl
  | case2 text inductionHypothesis =>
      rw [List.all_cons, inductionHypothesis]
      rfl
  | case3 c text notPair inductionHypothesis =>
      rw [List.all_cons, inductionHypothesis, Bool.and_true]
      split
      · rfl
      · split
        · rfl
        · simp_all [isTidy]

/-- A text whose line ends are uniform stays as it is. -/
theorem preprocess_of_all_isTidy {text : List Char} (areTidy : text.all isTidy) :
    preprocess text = text := by
  fun_induction preprocess text with
  | case1 => rfl
  | case2 => cases areTidy
  | case3 c text notPair inductionHypothesis =>
      rw [List.all_cons, Bool.and_eq_true] at areTidy
      rw [inductionHypothesis areTidy.2]
      simp_all [isTidy]

/-! ## Strings -/

theorem stringAt_backslash {c : Char} (notLine : c ≠ '\n') (quote : Char) (rest : List Char) :
    stringAt quote ('\\' :: c :: rest) =
      (let (escaped, taken) := escapeAt (c :: rest)
      let (value, length, stop) := stringAt quote ((c :: rest).drop taken)
      (escaped :: value, taken + length + 1, stop)) := by
  rw [stringAt]
  all_goals simp [notLine]

/-- One written character is read as that character. -/
theorem stringAt_writeStringChar (c : Char) (rest : List Char) :
    stringAt '"' (writeStringChar c ++ rest) =
      (let (value, length, stop) := stringAt '"' rest
      (c :: value, length + (writeStringChar c).length, stop)) := by
  have ofEscape : ∀ {written : List Char}, EscapeOf c written →
      stringAt '"' (written ++ rest) =
        (let (value, length, stop) := stringAt '"' rest
        (c :: value, length + written.length, stop)) := fun escape => by
    obtain ⟨first, more, notLine, isEscape⟩ := escape
    have isDrop : (first :: (more ++ rest)).drop (more.length + 1) = rest := by
      rw [List.drop_succ_cons, List.drop_left]
    rw [List.cons_append, List.cons_append, stringAt_backslash notLine, isEscape rest]
    simp only [isDrop, List.length_cons]
    congr 2
    omega
  rw [writeStringChar]
  split_ifs with escaped
  · refine ofEscape ?_
    simp only [Bool.or_eq_true, beq_iff_eq] at escaped
    rcases escaped with rfl | rfl <;> exact escapeOf_backslash rfl (by decide)
  · cases isEscape : escapeLineEnd? c with
    | some written => exact ofEscape (escapeOf_escapeLineEnd isEscape)
    | none =>
        have notLine : c ≠ '\n' := by
          rintro rfl
          cases isEscape
        simp only [Bool.or_eq_true, beq_iff_eq, not_or] at escaped
        rw [Option.getD_none, List.singleton_append, stringAt]
        all_goals simp [escaped, notLine]

/-- A written string is read up to its closing quote. -/
theorem stringAt_write (value rest : List Char) :
    stringAt '"' (value.flatMap writeStringChar ++ '"' :: rest) =
      (value, (value.flatMap writeStringChar).length + 1, .closed) := by
  induction value with
  | nil =>
      rw [List.flatMap_nil, List.nil_append, stringAt]
      all_goals simp
  | cons c value inductionHypothesis =>
      rw [List.flatMap_cons, List.append_assoc, stringAt_writeStringChar, inductionHypothesis,
        List.length_append]
      simp only
      congr 2
      omega

theorem charOfCode_ne_zero (code : Nat) : charOfCode code ≠ '\x00' := by
  have ne_zero : ∀ {code : Nat}, code ≠ 0 → code.isValidChar → Char.ofNat code ≠ '\x00' := by
    intro code notZero isCode isZero
    have isNat : (Char.ofNat code).toNat = code := by
      rw [Char.ofNat, dif_pos isCode]
      rfl
    rw [isZero] at isNat
    exact notZero isNat.symm
  rw [charOfCode]
  split_ifs with surrogate isCode
  · rw [isSurrogate, Bool.and_eq_true, decide_eq_true_eq, decide_eq_true_eq] at surrogate
    exact ne_zero (by omega) (.inr ⟨by omega, by omega⟩)
  · rw [Bool.and_eq_true, bne_iff_ne, decide_eq_true_eq] at isCode
    exact ne_zero isCode.1 isCode.2
  · decide

theorem escapeAt_ne_zero {text : List Char} (noZero : '\x00' ∉ text) :
    (escapeAt text).1 ≠ '\x00' := by
  simp only [escapeAt]
  split_ifs with noDigits
  · cases text with
    | nil => decide
    | cons c rest =>
        rintro rfl
        exact noZero List.mem_cons_self
  all_goals exact charOfCode_ne_zero _

theorem zero_not_mem_stringAt (quote : Char) {text : List Char} (noZero : '\x00' ∉ text) :
    '\x00' ∉ (stringAt quote text).1 := by
  have ofDrop : ∀ {text : List Char} (n : Nat), '\x00' ∉ text → '\x00' ∉ text.drop n :=
    fun n noZero member => noZero (List.mem_of_mem_drop member)
  fun_induction stringAt quote text with
  | case1 => simp
  | case2 => simp
  | case3 rest value length stop isString inductionHypothesis =>
      rw [isString] at inductionHypothesis
      exact inductionHypothesis fun member => noZero (by simp [member])
  | case4 rest notEnd notLine escaped taken isEscape value length stop isString
      inductionHypothesis =>
      rw [List.mem_cons, not_or] at noZero
      rw [isString] at inductionHypothesis
      have notZero := escapeAt_ne_zero noZero.2
      rw [isEscape] at notZero
      rw [List.mem_cons, not_or]
      exact ⟨notZero.symm, inductionHypothesis (ofDrop taken noZero.2)⟩
  | case5 => simp
  | case6 => simp
  | case7 c rest _ _ _ notQuote notLine value length stop isString inductionHypothesis =>
      rw [List.mem_cons, not_or] at noZero ⊢
      rw [isString] at inductionHypothesis
      exact ⟨noZero.1, inductionHypothesis noZero.2⟩

theorem all_isTidy_writeStringChar {c : Char} (notZero : c ≠ '\x00') :
    (writeStringChar c).all isTidy := by
  rw [writeStringChar, escapeLineEnd?]
  split_ifs with escaped line carriage feed
  · simp only [Bool.or_eq_true, beq_iff_eq] at escaped
    rcases escaped with rfl | rfl <;> decide
  · exact show ['\\', 'A', ' '].all isTidy by decide
  · exact show ['\\', 'D', ' '].all isTidy by decide
  · exact show ['\\', 'C', ' '].all isTidy by decide
  · simp_all [isTidy]

/-! ## Comments -/

/-- The text of a comment begins where the comment does. -/
theorem head?_of_mem_head?_commentAt {text : List Char} {c : Char}
    (isHead : c ∈ (commentAt text).1.head?) : c ∈ text.head? := by
  fun_cases commentAt text with
  | case1 => cases isHead
  | case2 => cases isHead
  | case3 d text notEnd comment length isComment =>
      rw [commentAt, isComment] at isHead
      · exact isHead
      · exact notEnd

/-- The text of a comment that has been read is read again up to its end. -/
theorem commentAt_append (source rest : List Char) :
    commentAt ((commentAt source).1 ++ '*' :: '/' :: rest) =
      ((commentAt source).1, (commentAt source).1.length + 2) := by
  fun_induction commentAt source with
  | case1 => rfl
  | case2 => rfl
  | case3 c text notEnd comment length isComment inductionHypothesis =>
      have isText : comment = (commentAt text).1 := by rw [isComment]
      rw [isComment] at inductionHypothesis
      rw [List.cons_append, commentAt, inductionHypothesis]
      · rfl
      · intro more isStar isEnd
        cases comment with
        | nil => cases isEnd
        | cons d comment =>
            obtain ⟨rfl, -⟩ := List.cons.inj isEnd
            have isHead : '/' ∈ text.head? := head?_of_mem_head?_commentAt (by rw [← isText]; rfl)
            cases text with
            | nil => cases isHead
            | cons e text =>
                obtain rfl := Option.some.inj isHead
                exact notEnd text isStar rfl

theorem mem_of_mem_commentAt {text : List Char} {c : Char} (member : c ∈ (commentAt text).1) :
    c ∈ text := by
  fun_induction commentAt text with
  | case1 => cases member
  | case2 => cases member
  | case3 d text notEnd comment length isComment inductionHypothesis =>
      rw [isComment] at inductionHypothesis
      rcases List.mem_cons.mp member with rfl | member
      · exact List.mem_cons_self
      · exact List.mem_cons_of_mem _ (inductionHypothesis member)

/-! ## Addresses -/

/-- A character that stands in an address as it is. -/
def isAddressChar (c : Char) : Bool :=
  c != ')' && !isGap c && c != '\\' && !isBarred c

/-- The characters of an address without escapes stand in it as they are. -/
theorem mem_addressAt {text : List Char} (noEscape : '\\' ∉ text.take (addressAt text).2.1) :
    ∀ c ∈ (addressAt text).1, isAddressChar c ∧ c ∈ text := by
  fun_induction addressAt text with
  | case1 => simp
  | case2 => simp
  | case3 => simp
  | case4 c rest notEnd notGap escapes escaped taken isEscape value length stop isAddress
      inductionHypothesis =>
      exfalso
      unfold startsEscape at escapes
      split at escapes
      · cases escapes
      · rename_i same
        obtain ⟨rfl, rfl⟩ := List.cons.inj same
        exact noEscape List.mem_cons_self
      · cases escapes
  | case5 => simp
  | case6 c rest notEnd notGap noEscapeHere notBarred value length stop isAddress
      inductionHypothesis =>
      rw [isAddress] at inductionHypothesis
      rw [List.take_succ_cons, List.mem_cons, not_or] at noEscape
      have isChar : isAddressChar c := by
        simp_all [isAddressChar, Ne.symm noEscape.1]
      intro d member
      rcases List.mem_cons.mp member with rfl | member
      · exact ⟨isChar, List.mem_cons_self⟩
      · obtain ⟨isChar, member⟩ := inductionHypothesis noEscape.2 d member
        exact ⟨isChar, List.mem_cons_of_mem _ member⟩

/-- An address is read up to its parenthesis. -/
theorem addressAt_append {value : List Char} (areChars : value.all isAddressChar)
    (rest : List Char) :
    addressAt (value ++ ')' :: rest) = (value, value.length + 1, .closed) := by
  induction value with
  | nil => simp [addressAt]
  | cons c value inductionHypothesis =>
      rw [List.all_cons, Bool.and_eq_true] at areChars
      obtain ⟨isChar, areChars⟩ := areChars
      simp only [isAddressChar, Bool.and_eq_true, bne_iff_ne, Bool.not_eq_true'] at isChar
      obtain ⟨⟨⟨notEnd, notGap⟩, notEscape⟩, notBarred⟩ := isChar
      have noEscape : startsEscape (c :: (value ++ ')' :: rest)) = false := by
        unfold startsEscape
        split <;> simp_all
      rw [List.cons_append, addressAt, inductionHypothesis areChars]
      simp [notEnd, notGap, noEscape, notBarred]

theorem flatMap_writeAddressChar {value : List Char} (areChars : value.all isAddressChar)
    (areTidy : value.all isTidy) : value.flatMap writeAddressChar = value := by
  induction value with
  | nil => rfl
  | cons c value inductionHypothesis =>
      rw [List.all_cons, Bool.and_eq_true] at areChars areTidy
      obtain ⟨isChar, areChars⟩ := areChars
      obtain ⟨isTidy, areTidy⟩ := areTidy
      have same : writeAddressChar c = [c] := by
        simp [isAddressChar, isBarred, isGap] at isChar
        simp [Css.isTidy] at isTidy
        simp [writeAddressChar, escapeLineEnd?, isChar, isTidy]
      rw [List.flatMap_cons, same, inductionHypothesis areChars areTidy]
      rfl

/-- The lexeme of an address is read up to its parenthesis. -/
theorem addressLexemes_append {value : List Char} (areChars : value.all isAddressChar)
    (rest : List Char) :
    addressLexemes (value ++ ')' :: rest) = ([.address value true], value.length + 1) := by
  have noGap : gapLength (value ++ ')' :: rest) = 0 := by
    cases value with
    | nil => rfl
    | cons c value =>
        simp only [List.all_cons, isAddressChar, Bool.and_eq_true, Bool.not_eq_true'] at areChars
        simp [gapLength, areChars.1.1.1.2]
  have nonempty : (value ++ ')' :: rest).isEmpty = false := by
    cases value <;> rfl
  rw [addressLexemes, noGap, List.drop_zero, nonempty, addressAt_append areChars rest]
  simp

/-- An address without a flaw is a single lexeme. -/
theorem exists_address (text : List Char)
    (flawless : ∀ flaw, Lexeme.flaw flaw ∉ (addressLexemes text).1) :
    ∃ value, (addressLexemes text).1 = [.address value true] ∧
      ('\\' ∉ text.take (addressLexemes text).2 → ∀ c ∈ value, isAddressChar c ∧ c ∈ text) := by
  have ofTake : ∀ {n : Nat}, gapLength text + (addressAt (text.drop (gapLength text))).2.1 ≤ n →
      '\\' ∉ text.take n → ∀ c ∈ (addressAt (text.drop (gapLength text))).1,
        isAddressChar c ∧ c ∈ text := fun atMost noEscape c member => by
    have inside : '\\' ∉ (text.drop (gapLength text)).take
        (addressAt (text.drop (gapLength text))).2.1 := fun isIn => by
      rw [List.take_drop] at isIn
      exact noEscape (List.take_subset_take_left text atMost (List.mem_of_mem_drop isIn))
    obtain ⟨isChar, member⟩ := mem_addressAt inside c member
    exact ⟨isChar, List.mem_of_mem_drop member⟩
  cases isAddress : addressAt (text.drop (gapLength text)) with
  | mk value tail =>
  obtain ⟨length, stop⟩ := tail
  rw [isAddress] at ofTake
  revert flawless
  simp only [addressLexemes, isAddress]
  split
  · simp
  · cases stop with
    | openEnd => simp
    | barred => simp
    | closed => exact fun _ => ⟨value, rfl, ofTake (Nat.le_refl _)⟩
    | atGap =>
        simp only
        split
        · simp
        · split
          · exact fun _ => ⟨value, rfl, ofTake (show gapLength text + length ≤ _ by omega)⟩
          · simp

/-! ## Ranges of code points -/

/-- How many code points there are places for. -/
def codeBound : Nat :=
  16 ^ 6

theorem digitChar_hex : ∀ digit < 16, isHex (Nat.digitChar digit).toUpper ∧
    hexValue (Nat.digitChar digit).toUpper = digit := by
  decide

theorem hexNumber_append (digits : List Char) (c : Char) :
    hexNumber (digits ++ [c]) = 16 * hexNumber digits + hexValue c := by
  simp [hexNumber]

/-- A code point is read from its digits. -/
theorem hexNumber_writeHex (n : Nat) :
    hexNumber (writeHex n) = n ∧ (∀ c ∈ writeHex n, isHex c) ∧ writeHex n ≠ [] := by
  induction n using Nat.strongRecOn with
  | ind n inductionHypothesis =>
      by_cases isDigit : n < 16
      · have same : writeHex n = [(Nat.digitChar n).toUpper] := by
          rw [writeHex, Nat.toDigits_of_lt_base isDigit]
          rfl
        obtain ⟨areHex, isValue⟩ := digitChar_hex n isDigit
        rw [same]
        exact ⟨by simpa [hexNumber] using isValue, by simpa using areHex, by simp⟩
      · have same : writeHex n = writeHex (n / 16) ++ [(Nat.digitChar (n % 16)).toUpper] := by
          rw [writeHex, Nat.toDigits_of_base_le (by decide) (by omega), List.map_append]
          rfl
        obtain ⟨isNumber, areHex, -⟩ := inductionHypothesis (n / 16) (by omega)
        obtain ⟨isHex, isValue⟩ := digitChar_hex (n % 16) (Nat.mod_lt n (by decide))
        rw [same]
        refine ⟨?_, ?_, by simp⟩
        · rw [hexNumber_append, isNumber, isValue]
          omega
        · simpa [or_imp, forall_and] using ⟨areHex, isHex⟩

theorem length_writeHex {n : Nat} (inBound : n < codeBound) : (writeHex n).length ≤ 6 := by
  rw [writeHex, List.length_map]
  exact (Nat.length_toDigits_le_iff (by decide) (by decide)).mpr inBound

theorem hexValue_lt {c : Char} (hex : isHex c) : hexValue c < 16 :=
  forall_ascii (fun c => isHex c → hexValue c < 16) (by decide) (toNat_of_isHex hex) hex

theorem hexNumber_lt {digits : List Char} (areHex : ∀ c ∈ digits, isHex c) :
    hexNumber digits < 16 ^ digits.length := by
  induction digits using List.reverseRecOn with
  | nil => decide
  | append_singleton digits c inductionHypothesis =>
      have before := inductionHypothesis fun d member => areHex d (List.mem_append_left _ member)
      have last := hexValue_lt (areHex c (by simp))
      rw [hexNumber_append, List.length_append, List.length_singleton, Nat.pow_succ]
      omega

theorem hexNumber_lt_codeBound {digits : List Char} (areHex : ∀ c ∈ digits, isHex c)
    (short : digits.length ≤ 6) : hexNumber digits < codeBound :=
  Nat.lt_of_lt_of_le (hexNumber_lt areHex) (Nat.pow_le_pow_right (by decide) short)

/-- A range of code points goes on with this text. -/
def continuesRange (text : List Char) : Bool :=
  match text with
  | '-' :: rest => rest.head?.any isHex
  | _ => text.head?.any fun c => isHex c || c == '?'

/-- What is read as a range of code points has numbers within bounds. -/
theorem codeRangeAt_lt (text : List Char) :
    (codeRangeAt text).1 < codeBound ∧ (codeRangeAt text).2.1 < codeBound := by
  have areDigits : ∀ text : List Char, hexNumber ((text.take 6).takeWhile isHex) < codeBound :=
    fun text => hexNumber_lt_codeBound (fun c member => List.mem_takeWhile_imp member)
      ((List.takeWhile_prefix isHex).length_le.trans (List.length_take_le 6 text))
  have withMarks : ∀ c : Char, isHex c → hexNumber ((text.take 6).takeWhile isHex ++
      List.replicate (((text.take 6).drop ((text.take 6).takeWhile isHex).length).takeWhile
        (· == '?')).length c) < codeBound := fun c hex => by
    refine hexNumber_lt_codeBound (fun d member => ?_) ?_
    · rcases List.mem_append.mp member with inDigits | inMarks
      · exact List.mem_takeWhile_imp inDigits
      · rwa [List.eq_of_mem_replicate inMarks]
    · have atMost : (((text.take 6).drop ((text.take 6).takeWhile isHex).length).takeWhile
          (· == '?')).length ≤ (text.take 6).length - ((text.take 6).takeWhile isHex).length :=
        (List.takeWhile_prefix _).length_le.trans (Nat.le_of_eq List.length_drop)
      have short := List.length_take_le 6 text
      have inside := (List.takeWhile_prefix (l := text.take 6) isHex).length_le
      rw [List.length_append, List.length_replicate]
      omega
  simp only [codeRangeAt]
  split
  · exact ⟨withMarks '0' rfl, withMarks 'F' rfl⟩
  · split
    · split
      · exact ⟨areDigits text, areDigits text⟩
      · exact ⟨areDigits text, areDigits _⟩
    · exact ⟨areDigits text, areDigits text⟩

/-- The range that starts with some digits, given what follows them. -/
def rangeFrom (digits : List Char) : List Char → Nat × Nat × Nat
  | '-' :: rest =>
      let last := (rest.take 6).takeWhile isHex
      if last.isEmpty then (hexNumber digits, hexNumber digits, digits.length)
      else (hexNumber digits, hexNumber last, digits.length + 1 + last.length)
  | _ => (hexNumber digits, hexNumber digits, digits.length)

/-- Digits that no question mark follows are read as the start of a range. -/
theorem codeRangeAt_digits {digits after : List Char} (areHex : ∀ c ∈ digits, isHex c)
    (short : digits.length ≤ 6) (ends : ∀ c ∈ after.head?, isHex c = false ∧ c ≠ '?') :
    codeRangeAt (digits ++ after) = rangeFrom digits after := by
  have areDigits : ((digits ++ after).take 6).takeWhile isHex = digits :=
    takeWhile_isHex_append areHex short fun c isHead => (ends c isHead).1
  have noMarks : (((digits ++ after).take 6).drop digits.length).takeWhile (· == '?') = [] := by
    rw [List.take_append, List.take_of_length_le short, List.drop_left]
    cases after with
    | nil => simp
    | cons c after =>
        cases 6 - digits.length with
        | zero => rfl
        | succ left => simp [(ends c rfl).2]
  simp only [codeRangeAt, areDigits, noMarks, List.isEmpty_nil, Bool.not_true, List.length_nil,
    Nat.add_zero, List.drop_left]
  rfl

theorem rangeFrom_of_not_continuesRange (digits : List Char) {rest : List Char}
    (ends : continuesRange rest = false) :
    rangeFrom digits rest = (hexNumber digits, hexNumber digits, digits.length) := by
  unfold continuesRange at ends
  unfold rangeFrom
  split
  · rename_i rest
    have noDigits : (rest.take 6).takeWhile isHex = [] := by
      cases rest with
      | nil => rfl
      | cons c rest => simpa using ends
    simp only [noDigits]
    rfl
  · rfl

/-- A written range of code points is read up to its end. -/
theorem codeRangeAt_write {first last : Nat} (firstBound : first < codeBound)
    (lastBound : last < codeBound) {rest : List Char} (ends : continuesRange rest = false) :
    codeRangeAt ((writeCodeRange first last).drop 2 ++ rest) =
      (first, last, (writeCodeRange first last).length - 2) := by
  obtain ⟨isFirst, firstHex, -⟩ := hexNumber_writeHex first
  obtain ⟨isLast, lastHex, lastNonempty⟩ := hexNumber_writeHex last
  have endsHex : ∀ c ∈ rest.head?, isHex c = false ∧ c ≠ '?' := by
    intro c isHead
    unfold continuesRange at ends
    split at ends
    · obtain rfl := Option.some.inj isHead
      decide
    · rw [isHead, Option.any_some, Bool.or_eq_false_iff, beq_eq_false_iff_ne] at ends
      exact ends
  by_cases same : last = first
  · subst same
    have isText : (writeCodeRange last last).drop 2 = writeHex last := by
      simp [writeCodeRange]
    have isLength : (writeCodeRange last last).length - 2 = (writeHex last).length := by
      simp [writeCodeRange]
    rw [isText, isLength, codeRangeAt_digits lastHex (length_writeHex lastBound) endsHex,
      rangeFrom_of_not_continuesRange _ ends, isLast]
  · have isText : (writeCodeRange first last).drop 2 ++ rest =
        writeHex first ++ '-' :: (writeHex last ++ rest) := by
      simp [writeCodeRange, same]
    have isLength : (writeCodeRange first last).length - 2 =
        (writeHex first).length + 1 + (writeHex last).length := by
      simp [writeCodeRange, same]
      omega
    have areDigits : ((writeHex last ++ rest).take 6).takeWhile isHex = writeHex last :=
      takeWhile_isHex_append lastHex (length_writeHex lastBound) fun c isHead =>
        (endsHex c isHead).1
    rw [isText, isLength,
      codeRangeAt_digits firstHex (length_writeHex firstBound) (by simp; decide)]
    simp only [rangeFrom, areDigits, List.isEmpty_eq_false_iff.mpr lastNonempty, isFirst, isLast]
    rfl

end ContainerPreview.Css
