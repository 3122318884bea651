import ContainerPreview.Proofs.Css.Kind
import ContainerPreview.Proofs.Value.Literals
import ContainerPreview.Proofs.Value.Plain

/-!
# Literals and tokens

A reader of style sheets sees strings and addresses in a value where it cuts them from the text
as tokens.  Conversion finds its literals without such a reader, by what they begin and end with.
Both see the same literals in a value if no backslash in a string takes an end of line, no
address has a closing parenthesis before the one that ends it, and neither quotes nor heads of
addresses stand elsewhere.  Then conversion changes what is between these tokens and nothing else.
-/

namespace ContainerPreview

open Text

namespace Value

/-! ## Literals of a reader of style sheets -/

/-- How far a string goes as an argument, with blanks around it and the closing parenthesis. -/
def argumentLength? (text : List Char) : Option Nat :=
  let before := Css.gapLength text
  match text.drop before with
  | [] => none
  | quote :: rest =>
      match Css.stringAt quote rest with
      | (_, length, .closed) =>
          let inside := before + length + 1
          let close := inside + Css.gapLength (text.drop inside)
          if (text.drop close).head? == some ')' then some (close + 1) else none
      | _ => none

/-- How far the string or the address goes that is cut from a text: an address stands by itself
or as a string that is the argument of `url`. -/
def tokenLength? (c : Char) (rest : List Char) : Option Nat :=
  match Css.signsAt c rest with
  | ([.lexeme (.string _ true)], length) => some length
  | ([.lexeme (.address _ true)], length) => some length
  | ([.opening (.function name)], length) =>
      if lowerAscii name == ['u', 'r', 'l'] then
        (argumentLength? (rest.drop (length - 1))).map (length + ·)
      else none
  | _ => none

/-- The strings and addresses among the tokens of a value and the text of the tokens between
them. -/
def tokenSpans (text : List Char) : List Span :=
  match text with
  | [] => []
  | c :: rest =>
      match tokenLength? c rest with
      | some length =>
          .literal (c :: rest.take (length - 1)) :: tokenSpans (rest.drop (length - 1))
      | none =>
          let length := (Css.signsAt c rest).2
          (c :: rest.take (length - 1)).foldr consFree (tokenSpans (rest.drop (length - 1)))
termination_by text.length
decreasing_by
  all_goals simp only [List.length_drop, List.length_cons]; omega

theorem flatMap_text_foldr_consFree (text : List Char) (spans : List Span) :
    (text.foldr consFree spans).flatMap Span.text = text ++ spans.flatMap Span.text := by
  induction text with
  | nil => rfl
  | cons c text inductionHypothesis =>
      rw [List.foldr_cons, flatMap_text_consFree, inductionHypothesis, List.cons_append]

theorem flatMap_text_tokenSpans (text : List Char) :
    (tokenSpans text).flatMap Span.text = text := by
  fun_induction tokenSpans text with
  | case1 => rfl
  | case2 c rest length found inductionHypothesis =>
      rw [List.flatMap_cons, inductionHypothesis, Span.text, List.cons_append,
        List.take_append_drop]
  | case3 c rest noToken length inductionHypothesis =>
      rw [flatMap_text_foldr_consFree, inductionHypothesis, List.cons_append,
        List.take_append_drop]

/-! ## Where both see the same -/

/-- The head of an address. -/
def addressHead : List Char :=
  ['u', 'r', 'l', '(']

/-- No quote stands in a text between tokens, and the head of no address begins in it. -/
def isPlainFree (previous : Option Char) (rest : List Char) : List Char → Bool
  | [] => true
  | c :: text =>
      !isQuote c &&
        (previous.any isNameChar || (dropStartFolded? addressHead (c :: (text ++ rest))).isNone) &&
          isPlainFree (some c) rest text

/-- No backslash in a string takes an end of line, and the first closing parenthesis in an
address, which does not go on a name, ends it. -/
def isPlainLiteral (previous : Option Char) : List Char → Bool
  | [] => false
  | c :: text =>
      if isQuote c then isUnbroken false text
      else !previous.any isNameChar && (dropStartFolded? addressHead (c :: text)).any fun address =>
        address.idxOf ')' + 1 == address.length

/-- Conversion keeps in step with a reader of style sheets over the tokens of a value that stand
after `previous`. -/
def inStep (previous : Option Char) : List Span → Bool
  | [] => true
  | .free text :: spans =>
      isPlainFree previous (spans.flatMap Span.text) text && inStep (lastAfter previous text) spans
  | .literal text :: spans => isPlainLiteral previous text && inStep text.getLast? spans

/-! ## Strings -/

theorem isUnbroken_append {skipped : List Char} (notBackslash : '\\' ∉ skipped)
    (text : List Char) : isUnbroken false (skipped ++ text) = isUnbroken false text := by
  induction skipped with
  | nil => rfl
  | cons c skipped inductionHypothesis =>
      rw [List.mem_cons, not_or] at notBackslash
      have notHere : (c == '\\') = false := beq_false_of_ne (Ne.symm notBackslash.1)
      rw [List.cons_append, isUnbroken, notHere]
      exact inductionHypothesis notBackslash.2

theorem stringLength?_append {quote : Char} {skipped : List Char}
    (plain : ∀ c ∈ skipped, c ≠ '\\' ∧ c ≠ quote) (text : List Char) :
    stringLength? quote (skipped ++ text) =
      (stringLength? quote text).map (· + skipped.length) := by
  induction skipped with
  | nil => exact Option.map_id'.symm
  | cons c skipped inductionHypothesis =>
      obtain ⟨here, later⟩ := List.forall_mem_cons.mp plain
      rw [List.cons_append, stringLength?_cons here.1, if_neg (by simpa using here.2),
        inductionHypothesis later, Option.map_map]
      rfl

/-- An escape takes a character and, if that is a hexadecimal digit, further ones and a blank. -/
theorem exists_of_escapeAt (c : Char) (rest : List Char) :
    ∃ skipped after, rest = skipped ++ after ∧ (Css.escapeAt (c :: rest)).2 = skipped.length + 1 ∧
      ∀ d ∈ skipped, Css.isHex d ∨ Css.isGap d := by
  cases hex : Css.isHex c with
  | false => exact ⟨[], rest, rfl, by rw [Css.escapeAt_of_not_isHex hex]; rfl, by simp⟩
  | true =>
      obtain ⟨after, isRest⟩ := (List.takeWhile_prefix Css.isHex).trans (List.take_prefix 5 rest)
      have areHex : ∀ d ∈ (rest.take 5).takeWhile Css.isHex, Css.isHex d :=
        fun d member => List.mem_takeWhile_imp member
      have digits : ((c :: rest).take 6).takeWhile Css.isHex =
          c :: (rest.take 5).takeWhile Css.isHex := by
        rw [List.take_succ_cons, List.takeWhile_cons_of_pos hex]
      simp only [Css.escapeAt, digits, List.isEmpty_cons, Bool.false_eq_true, if_false,
        List.length_cons, List.drop_succ_cons]
      generalize (rest.take 5).takeWhile Css.isHex = more at isRest areHex
      subst isRest
      rw [List.drop_left]
      by_cases gap : after.head?.any Css.isGap
      · obtain ⟨d, isHead, isGap⟩ := (Option.any_eq_true ..).mp gap
        obtain ⟨after, rfl⟩ := List.head?_eq_some_iff.mp isHead
        refine ⟨more ++ [d], after, by simp, by simp [isGap], fun e member => ?_⟩
        rcases List.mem_append.mp member with inMore | isLast
        · exact .inl (areHex e inMore)
        · exact .inr (List.mem_singleton.mp isLast ▸ isGap)
      · exact ⟨more, after, rfl, by simp [gap], fun d member => .inl (areHex d member)⟩

/-- Neither a hexadecimal digit nor a blank ends a string or begins an escape. -/
theorem notEnd_of_escaped {quote c : Char} (quotes : isQuote quote)
    (escaped : Css.isHex c ∨ Css.isGap c) : c ≠ '\\' ∧ c ≠ quote := by
  simp only [isQuote, Bool.or_eq_true, beq_iff_eq] at quotes
  constructor
  · rintro rfl
    rcases escaped with hex | gap
    · cases hex
    · cases gap
  · rintro rfl
    rcases quotes with rfl | rfl
    all_goals rcases escaped with hex | gap
    all_goals contradiction

/-- A string that ends with its quote for a reader of style sheets ends there for conversion too,
if no backslash in it takes an end of line. -/
theorem stringLength?_of_stringAt {quote : Char} (quotes : isQuote quote) {text value : List Char}
    {length : Nat} (closed : Css.stringAt quote text = (value, length, .closed))
    (unbroken : isUnbroken false (text.take length)) :
    stringLength? quote text = some length := by
  fun_induction Css.stringAt quote text generalizing value length with
  | case1 => cases closed
  | case2 => cases closed
  | case3 rest _ taken stop isRest _ =>
      cases closed
      cases unbroken
  | case4 rest notEnd notLine escaped taken isEscape _ more stop isRest inductionHypothesis =>
      cases rest with
      | nil => exact absurd rfl notEnd
      | cons c rest =>
          obtain ⟨skipped, after, rfl, isTaken, escapes⟩ := exists_of_escapeAt c rest
          have plain : ∀ d ∈ skipped, d ≠ '\\' ∧ d ≠ quote := fun d member =>
            notEnd_of_escaped quotes (escapes d member)
          obtain rfl : taken = skipped.length + 1 := by rwa [isEscape] at isTaken
          rw [List.drop_succ_cons, List.drop_left] at isRest inductionHypothesis
          cases closed
          have notHere : (c == '\n') = false := beq_false_of_ne fun isLine =>
            notLine _ (by rw [isLine])
          have isText : ('\\' :: c :: (skipped ++ after)).take (skipped.length + 1 + more + 1) =
              '\\' :: c :: (skipped ++ after.take more) := by
            rw [List.take_succ_cons, Nat.add_right_comm, List.take_succ_cons,
              List.take_length_add_append]
          have notBackslash : '\\' ∉ skipped := fun member => (plain _ member).1 rfl
          rw [isText, isUnbroken, isUnbroken, notHere] at unbroken
          have laterUnbroken : isUnbroken false (skipped ++ after.take more) := unbroken
          rw [isUnbroken_append notBackslash] at laterUnbroken
          rw [stringLength?, notHere, if_neg Bool.false_ne_true, stringLength?_append plain,
            inductionHypothesis isRest laterUnbroken, Option.map_some, Option.map_some]
          congr 1
          omega
  | case5 c rest _ _ notBackslash isQuote =>
      cases closed
      rw [stringLength?_cons notBackslash, if_pos isQuote]
  | case6 => cases closed
  | case7 c rest _ _ notBackslash notQuote _ _ more stop isRest inductionHypothesis =>
      cases closed
      have notHere : (c == '\\') = false := beq_false_of_ne notBackslash
      rw [List.take_succ_cons, isUnbroken, notHere] at unbroken
      rw [stringLength?_cons notBackslash, if_neg notQuote, inductionHypothesis isRest unbroken]
      rfl

/-! ## Literals -/

theorem addressLength?_append {address : List Char}
    (ends : address.idxOf ')' + 1 = address.length) (rest : List Char) :
    addressLength? (address ++ rest) = some address.length := by
  induction address with
  | nil => cases ends
  | cons c address inductionHypothesis =>
      rw [List.cons_append, addressLength?]
      by_cases isClosing : c = ')'
      · rw [isClosing, List.idxOf_cons_self, List.length_cons] at ends
        rw [isClosing, BEq.rfl, if_pos rfl, List.length_cons, ← ends]
      · have notClosing : (c == ')') = false := beq_false_of_ne isClosing
        rw [List.idxOf_cons_ne _ isClosing, List.length_cons, Nat.add_right_cancel_iff] at ends
        rw [notClosing, if_neg Bool.false_ne_true, inductionHypothesis ends]
        rfl

/-- An address that its first closing parenthesis ends is a literal. -/
theorem literalLength?_address {previous : Option Char} {c : Char} {text : List Char}
    (notQuote : isQuote c = false) (plain : isPlainLiteral previous (c :: text))
    (rest : List Char) :
    literalLength? previous (c :: text ++ rest) = some (c :: text).length := by
  rw [isPlainLiteral, notQuote, if_neg Bool.false_ne_true, Bool.and_eq_true,
    Bool.not_eq_true'] at plain
  obtain ⟨notName, isAddress⟩ := plain
  obtain ⟨address, dropped, ends⟩ := (Option.any_eq_true ..).mp isAddress
  have isHead : dropStartFolded? ['u', 'r', 'l', '('] (c :: (text ++ rest)) = some (address ++ rest) :=
    dropStartFolded?_append dropped rest
  rw [isQuote] at notQuote
  rw [List.cons_append, literalLength?, notQuote, if_neg Bool.false_ne_true, notName,
    if_neg Bool.false_ne_true, isHead]
  simp only [addressLength?_append (eq_of_beq ends), Option.map_some,
    length_of_dropStartFolded? dropped, Option.some.injEq]
  exact Nat.add_comm ..

/-- A string that is cut from a value is closed. -/
theorem exists_of_tokenLength?_quote {quote : Char} (quotes : isQuote quote) {rest : List Char}
    {length : Nat} (found : tokenLength? quote rest = some length) :
    ∃ value inside, Css.stringAt quote rest = (value, inside, .closed) ∧ length = inside + 1 := by
  have isString : Css.signsAt quote rest = Css.stringSigns quote rest := by
    simp only [isQuote, Bool.or_eq_true, beq_iff_eq] at quotes
    rcases quotes with rfl | rfl <;> rfl
  rw [tokenLength?, isString, Css.stringSigns] at found
  cases isCut : Css.stringAt quote rest with
  | mk value tail =>
      obtain ⟨inside, stop⟩ := tail
      rw [isCut] at found
      cases stop with
      | closed => exact ⟨value, inside, rfl, (Option.some.inj found).symm⟩
      | openEnd => cases found
      | broken => cases found

/-- A plain string or address that is cut from a value is a literal. -/
theorem literalLength?_of_tokenLength? {previous : Option Char} {c : Char} {rest : List Char}
    {length : Nat} (found : tokenLength? c rest = some length)
    (plain : isPlainLiteral previous (c :: rest.take (length - 1))) :
    literalLength? previous (c :: rest) = some (c :: rest.take (length - 1)).length := by
  cases quotes : isQuote c with
  | false =>
      have isLiteral := literalLength?_address quotes plain (rest.drop (length - 1))
      rwa [List.cons_append, List.take_append_drop] at isLiteral
  | true =>
      obtain ⟨value, inside, closed, rfl⟩ := exists_of_tokenLength?_quote quotes found
      rw [Nat.add_sub_cancel] at plain ⊢
      rw [isPlainLiteral, if_pos quotes] at plain
      have isString := stringLength?_of_stringAt quotes closed plain
      have within := (stringLength?_spec isString).1
      rw [isQuote] at quotes
      rw [literalLength?, if_pos quotes, isString, List.length_cons, List.length_take,
        Nat.min_eq_left within]
      rfl

/-! ## Values -/

/-- No literal begins with a character between tokens. -/
theorem literalLength?_of_isPlainFree {previous : Option Char} {c : Char} {text rest : List Char}
    (plain : isPlainFree previous rest (c :: text)) :
    literalLength? previous (c :: (text ++ rest)) = none ∧ isPlainFree (some c) rest text := by
  rw [isPlainFree, Bool.and_eq_true, Bool.and_eq_true, Bool.not_eq_true', isQuote,
    Bool.or_eq_true, Option.isNone_iff_eq_none] at plain
  obtain ⟨⟨notQuote, noHead⟩, later⟩ := plain
  refine ⟨?_, later⟩
  rw [literalLength?, notQuote, if_neg Bool.false_ne_true]
  split
  · rfl
  · rename_i notName
    have noAddress : dropStartFolded? ['u', 'r', 'l', '('] (c :: (text ++ rest)) = none :=
      noHead.resolve_left notName
    rw [noAddress]

theorem literalLength?_of_inStep {previous : Option Char} {c : Char} {spans : List Span}
    (steps : inStep previous (consFree c spans)) :
    literalLength? previous (c :: spans.flatMap Span.text) = none ∧ inStep (some c) spans := by
  cases spans with
  | nil =>
      have plain := (Bool.and_eq_true_iff.mp steps).1
      exact ⟨(literalLength?_of_isPlainFree plain).1, rfl⟩
  | cons span spans =>
      cases span with
      | literal text =>
          obtain ⟨plain, later⟩ := Bool.and_eq_true_iff.mp steps
          exact ⟨(literalLength?_of_isPlainFree plain).1, later⟩
      | free text =>
          obtain ⟨plain, later⟩ := Bool.and_eq_true_iff.mp steps
          obtain ⟨noLiteral, plainLater⟩ := literalLength?_of_isPlainFree plain
          exact ⟨noLiteral, Bool.and_eq_true_iff.mpr ⟨plainLater, later⟩⟩

/-- The characters of a token that is no literal are free text. -/
theorem spansAfter_foldr_consFree {text : List Char} {spans : List Span}
    (isText : spans.flatMap Span.text = text)
    (same : ∀ previous, inStep previous spans → spansAfter previous text = spans)
    (cut : List Char) {previous : Option Char} (steps : inStep previous (cut.foldr consFree spans)) :
    spansAfter previous (cut ++ text) = cut.foldr consFree spans := by
  induction cut generalizing previous with
  | nil => exact same previous steps
  | cons c cut inductionHypothesis =>
      obtain ⟨noLiteral, later⟩ := literalLength?_of_inStep steps
      rw [flatMap_text_foldr_consFree, isText] at noLiteral
      rw [List.cons_append, spansAfter_of_none noLiteral, inductionHypothesis later]
      rfl

/-- Where conversion keeps in step, its literals are the strings and addresses among the tokens. -/
theorem spansAfter_of_inStep {previous : Option Char} {text : List Char}
    (steps : inStep previous (tokenSpans text)) : spansAfter previous text = tokenSpans text := by
  fun_induction tokenSpans text generalizing previous with
  | case1 => rw [spansAfter]; rfl
  | case2 c rest length found inductionHypothesis =>
      obtain ⟨plain, later⟩ := Bool.and_eq_true_iff.mp steps
      have isLiteral := literalLength?_of_tokenLength? found plain
      have isText : c :: rest = c :: rest.take (length - 1) ++ rest.drop (length - 1) := by
        rw [List.cons_append, List.take_append_drop]
      rw [isText] at isLiteral ⊢
      rw [spansAfter_of_some isLiteral, inductionHypothesis later]
  | case3 c rest noToken length =>
      rename_i inductionHypothesis
      have isText : c :: rest = c :: rest.take (length - 1) ++ rest.drop (length - 1) := by
        rw [List.cons_append, List.take_append_drop]
      rw [isText]
      exact spansAfter_foldr_consFree (flatMap_text_tokenSpans _)
        (fun previous steps => inductionHypothesis steps) (c :: rest.take (length - 1)) steps

end Value

open Value

namespace Converter

/-- If conversion keeps in step with the tokens of a value, it keeps the strings and the addresses
among them, where they are, and converts the text between them; and if the units are words, none
is detected in a value that has quantities in strings and addresses only. -/
theorem convertFor_tokens {units : UnitMap} (typographyUnits : Option UnitMap)
    (words : ∀ entry ∈ units, isWord entry.1) (property : String) {value : String}
    (steps : inStep none (tokenSpans value.toList)) :
    let converter := ofMaps units typographyUnits
    (converter.convertFor property value).toList =
        (tokenSpans value.toList).flatMap
          (Span.mapFree ((converter.schemeFor property).convertCalls true)) ∧
      ((∀ text, .free text ∈ tokenSpans value.toList → unitsOf converter.general.names text = []) →
        converter.hasUnits value = false ∧ converter.unitsIn value = []) := by
  intro converter
  have sameSpans : spans value.toList = tokenSpans value.toList := spansAfter_of_inStep steps
  constructor
  · rw [convertFor, String.toList_ofList, Scheme.convert, mapFree, sameSpans]
  · intro noUnits
    have none : unitsOf converter.general.names (blankLiterals value.toList) = [] := by
      have spanned := spanned_spansAfter Option.none value.toList
      rw [blankLiterals, spans, spanned.unitsOf_blankLiteral (hasNames_general _ words),
        List.flatMap_eq_nil_iff]
      intro span member
      cases span with
      | literal text => rfl
      | free text => exact noUnits text (sameSpans ▸ member)
    have unitsIn : converter.unitsIn value = [] := List.map_eq_nil_iff.mpr none
    exact ⟨by rw [hasUnits, unitsIn]; rfl, unitsIn⟩

/-- Strings with escapes, one that spans lines in an address, an address with escapes, and a call
between them. -/
def literalValue : String :=
  "'\\'1vw\\\\' clamp( 1vw ,2px) URL( \"a\\\n 2vw\" ) '\\27 3vh' url(x\\,y\\ 4vw), \"5vw\""

/-- A string with an escape, an address with a string that spans lines, and a call without units
between them. -/
def quietValue : String :=
  "'\\'1vw' clamp( 1px ,2px) URL( \"a\\\n 2vw\" )"

theorem convertFor_tokens_literalValue :
    let converter := ofMaps .standard none
    ((∀ entry ∈ UnitMap.standard, isWord entry.1) ∧ inStep none (tokenSpans literalValue.toList) ∧
      inStep none (tokenSpans quietValue.toList) ∧
        ∀ text, .free text ∈ tokenSpans quietValue.toList →
          unitsOf converter.general.names text = []) ∧
      (converter.convertFor "grid-area" literalValue).toList =
        (tokenSpans literalValue.toList).flatMap
          (Span.mapFree ((converter.schemeFor "grid-area").convertCalls true)) ∧
      converter.hasUnits quietValue = false ∧ converter.unitsIn quietValue = [] := by
  have words : ∀ entry ∈ UnitMap.standard, isWord entry.1 := by decide
  have steps : inStep none (tokenSpans literalValue.toList) := by decide +kernel
  have stepsQuiet : inStep none (tokenSpans quietValue.toList) := by decide +kernel
  have isCut : tokenSpans quietValue.toList =
      [.literal "'\\'1vw'".toList, .free " clamp( 1px ,2px) ".toList,
        .literal "URL( \"a\\\n 2vw\" )".toList] := by decide +kernel
  have noUnits : ∀ text, .free text ∈ tokenSpans quietValue.toList →
      unitsOf (ofMaps .standard none).general.names text = [] := by
    intro text member
    simp only [isCut, List.mem_cons, reduceCtorEq, Span.free.injEq, List.not_mem_nil, or_false,
      false_or] at member
    subst member
    decide +kernel
  exact ⟨⟨words, steps, stepsQuiet, noUnits⟩,
    (convertFor_tokens none words "grid-area" steps).1,
    (convertFor_tokens none words "grid-area" stepsQuiet).2 noUnits⟩

/-- An address with a parenthesis in its string, one with an escaped parenthesis, and a string in
which a backslash takes an end of line. -/
def slippedValues : List String :=
  ["url(\"a) 1vw\")", "url(a\\),1vw)", "'a\\\n 1vw'"]

/-- Each of these values is one string or one address, and conversion finds a unit in it. -/
theorem not_convertFor_tokens :
    slippedValues.Forall fun value => tokenSpans value.toList = [.literal value.toList] ∧
      standard.hasUnits value ∧ standard.unitsIn value ≠ [] ∧
        standard.convertFor "background" value ≠ value := by
  decide +kernel

end Converter

end ContainerPreview
