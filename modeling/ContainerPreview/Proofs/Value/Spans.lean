import ContainerPreview.Proofs.Value.Swap
import ContainerPreview.Value.Converter

/-!
# Values as literals and free text

A value is divided in one way into literals, which begin where they can, and free text, in which
none begins.  A literal is told by its own text and by whether a name goes on in front of it.
-/

namespace ContainerPreview

open Text

namespace Value

/-! ## Literals before other text -/

theorem ne_backslash {c : Char} {text : List Char} (notEnd : c = '\\' → text = [] → False)
    (notEscape : ∀ d rest, c = '\\' → text = d :: rest → False) : c ≠ '\\' := by
  intro isBackslash
  cases text with
  | nil => exact notEnd isBackslash rfl
  | cons d rest => exact notEscape d rest isBackslash rfl

theorem stringLength?_cons {quote c : Char} {text : List Char} (notBackslash : c ≠ '\\') :
    stringLength? quote (c :: text) =
      if c == quote then some 1 else (stringLength? quote text).map (· + 1) := by
  rw [stringLength?]
  · exact fun isBackslash => absurd isBackslash notBackslash
  · exact fun _ _ isBackslash => absurd isBackslash notBackslash

/-- A string ends with its quote, and what follows it has no part in it. -/
theorem stringLength?_spec {quote : Char} {text : List Char} {length : Nat}
    (found : stringLength? quote text = some length) :
    length ≤ text.length ∧ (∃ inside, text.take length = inside ++ [quote]) ∧
      ∀ right, stringLength? quote (text.take length ++ right) = some length := by
  fun_induction stringLength? quote text generalizing length with
  | case1 => cases found
  | case2 => cases found
  | case3 c text isBreak => cases found
  | case4 c text notBreak inductionHypothesis =>
      obtain ⟨fewer, isFewer, rfl⟩ := Option.map_eq_some_iff.mp found
      obtain ⟨within, ⟨inside, same⟩, ofPrefix⟩ := inductionHypothesis isFewer
      refine ⟨by simpa using within, ⟨'\\' :: c :: inside, by simp [same]⟩, fun right => ?_⟩
      simp [stringLength?, notBreak, ofPrefix right]
  | case5 c text notEnd notEscape isQuote =>
      cases found
      rw [beq_iff_eq] at isQuote
      refine ⟨by simp, ⟨[], by simp [isQuote]⟩, fun right => ?_⟩
      rw [List.take_succ_cons, List.take_zero, List.singleton_append,
        stringLength?_cons (ne_backslash notEnd notEscape), isQuote, BEq.rfl]
      rfl
  | case6 c text notEnd notEscape notQuote inductionHypothesis =>
      obtain ⟨fewer, isFewer, rfl⟩ := Option.map_eq_some_iff.mp found
      obtain ⟨within, ⟨inside, same⟩, ofPrefix⟩ := inductionHypothesis isFewer
      refine ⟨by simpa using within, ⟨c :: inside, by simp [same]⟩, fun right => ?_⟩
      rw [List.take_succ_cons, List.cons_append,
        stringLength?_cons (ne_backslash notEnd notEscape), if_neg notQuote, ofPrefix right]
      rfl

/-- An address ends with its parenthesis, and what follows it has no part in it. -/
theorem addressLength?_spec {text : List Char} {length : Nat}
    (found : addressLength? text = some length) :
    length ≤ text.length ∧ (∃ inside, text.take length = inside ++ [')']) ∧
      ∀ right, addressLength? (text.take length ++ right) = some length := by
  induction text generalizing length with
  | nil => cases found
  | cons c text inductionHypothesis =>
      rw [addressLength?] at found
      split at found
      · rename_i isClosing
        cases found
        rw [beq_iff_eq] at isClosing
        refine ⟨by simp, ⟨[], by simp [isClosing]⟩, fun right => ?_⟩
        simp [addressLength?, isClosing]
      · rename_i notClosing
        obtain ⟨fewer, isFewer, rfl⟩ := Option.map_eq_some_iff.mp found
        obtain ⟨within, ⟨inside, same⟩, ofPrefix⟩ := inductionHypothesis isFewer
        refine ⟨by simpa using within, ⟨c :: inside, by simp [same]⟩, fun right => ?_⟩
        simp [addressLength?, notClosing, ofPrefix right]

/-- An address with its head is a literal where no name goes on, whatever follows it. -/
theorem literalLength?_of_address {other : Option Char} {c : Char} {text rest : List Char}
    {length : Nat} (notQuote : ¬ (c == '"' || c == '\'')) (notInName : ¬ other.any isNameChar)
    (dropped : dropStartFolded? ['u', 'r', 'l', '('] (c :: text) = some rest)
    (found : addressLength? rest = some length) :
    length + 4 ≤ (c :: text).length ∧
      (∃ inside, (c :: text).take (length + 4) = inside ++ [')']) ∧
        ∀ right, literalLength? other ((c :: text).take (length + 4) ++ right) =
          some (length + 4) := by
  obtain ⟨within, ⟨inside, same⟩, ofPrefix⟩ := addressLength?_spec found
  obtain ⟨head, isText, fourLetters, ofHead⟩ := exists_of_dropStartFolded? dropped
  have isTake : (c :: text).take (length + 4) = head ++ rest.take length := by
    rw [isText, List.take_append, fourLetters, List.take_of_length_le]
    · congr 2
    · rw [fourLetters]
      exact Nat.le_add_left 4 length
  have lengths : (c :: text).length = 4 + rest.length := by
    rw [isText, List.length_append, fourLetters]
    rfl
  refine ⟨by omega, ⟨head ++ inside, ?_⟩, fun right => ?_⟩
  · rw [isTake, same, List.append_assoc]
  · obtain ⟨d, head', isHead⟩ : ∃ d head', head = d :: head' :=
      List.exists_cons_of_length_eq_add_one fourLetters
    obtain rfl : c = d := by
      rw [isHead] at isText
      exact (List.cons.inj isText).1
    have ofText := ofHead (rest.take length ++ right)
    rw [isHead] at ofText
    rw [isTake, isHead, List.append_assoc, List.cons_append, literalLength?, if_neg notQuote,
      if_neg notInName, ← List.cons_append, ofText]
    simp [ofPrefix right]

/-- A literal ends with a character that starts anew, and it is one whatever follows it and
after every text that a name goes on from alike. -/
theorem literalLength?_spec {previous other : Option Char} {text : List Char} {length : Nat}
    (alike : other.any isNameChar = previous.any isNameChar)
    (found : literalLength? previous text = some length) :
    length ≤ text.length ∧
      (∃ inside last, text.take length = inside ++ [last] ∧ isSeparator last ∧ last ≠ '\\') ∧
        ∀ right, literalLength? other (text.take length ++ right) = some length := by
  cases text with
  | nil => cases found
  | cons c text =>
      rw [literalLength?] at found
      split at found
      · rename_i isQuote
        obtain ⟨fewer, isFewer, rfl⟩ := Option.map_eq_some_iff.mp found
        obtain ⟨within, ⟨inside, same⟩, ofPrefix⟩ := stringLength?_spec isFewer
        refine ⟨by simpa using within, ⟨c :: inside, c, by simp [same], ?_⟩, fun right => ?_⟩
        · simp only [Bool.or_eq_true, beq_iff_eq] at isQuote
          rcases isQuote with rfl | rfl <;> decide
        · simp [literalLength?, isQuote, ofPrefix right]
      · rename_i notQuote
        split at found
        · cases found
        · rename_i notInName
          split at found
          · rename_i rest dropped
            obtain ⟨fewer, isFewer, rfl⟩ := Option.map_eq_some_iff.mp found
            rw [← alike] at notInName
            obtain ⟨within, ⟨inside, same⟩, ofPrefix⟩ :=
              literalLength?_of_address notQuote notInName dropped isFewer
            exact ⟨within, ⟨inside, ')', same, by decide, by decide⟩, ofPrefix⟩
          · cases found

/-- What a literal begins with is in no number, and it does not go on a name. -/
theorem class_of_literalLength? {previous : Option Char} {c : Char} {text : List Char}
    {length : Nat} (found : literalLength? previous (c :: text) = some length) :
    isNumberChar c = false ∧ (isNameChar c = false ∨ previous.any isNameChar = false) := by
  rw [literalLength?] at found
  split at found
  · rename_i isQuote
    simp only [Bool.or_eq_true, beq_iff_eq] at isQuote
    rcases isQuote with rfl | rfl
    · exact ⟨by decide, .inl (by decide)⟩
    · exact ⟨by decide, .inl (by decide)⟩
  · split at found
    · cases found
    · rename_i notInName
      split at found
      · rename_i rest dropped
        obtain ⟨_, _, isCons, same, -⟩ := exists_of_dropStartFolded?_cons dropped
        cases isCons
        exact ⟨(class_of_sameLetter_isLower (by decide) same).2,
          .inr (Bool.eq_false_iff.mpr notInName)⟩
      · cases found

/-! ## Stretches -/

/-- No literal begins in a text after `previous` that `rest` follows. -/
def Quiet (previous : Option Char) : List Char → List Char → Prop
  | [], _ => True
  | c :: text, rest =>
      literalLength? previous (c :: (text ++ rest)) = none ∧ Quiet (some c) text rest

/-- The text ends where the value does or where a literal begins. -/
def EndsBefore (previous : Option Char) (rest : List Char) : Prop :=
  rest = [] ∨ (literalLength? previous rest).isSome

/-- The stretches of a value: literals that begin where they can, and between them free text
in which none begins. -/
inductive Spanned : Option Char → List Char → List Span → Prop where
  | nil {previous : Option Char} : Spanned previous [] []
  | literal {previous : Option Char} {text rest : List Char} {spans : List Span}
      (found : literalLength? previous (text ++ rest) = some text.length)
      (later : Spanned text.getLast? rest spans) :
      Spanned previous (text ++ rest) (.literal text :: spans)
  | free {previous : Option Char} {text rest : List Char} {spans : List Span}
      (nonempty : text ≠ []) (quiet : Quiet previous text rest)
      (ends : EndsBefore (lastAfter previous text) rest)
      (later : Spanned (lastAfter previous text) rest spans) :
      Spanned previous (text ++ rest) (.free text :: spans)

theorem spansAfter_of_none {previous : Option Char} {c : Char} {text : List Char}
    (noLiteral : literalLength? previous (c :: text) = none) :
    spansAfter previous (c :: text) = consFree c (spansAfter (some c) text) := by
  rw [spansAfter]
  split
  · rename_i found
    rw [noLiteral] at found
    cases found
  · rfl

theorem spansAfter_of_some {previous : Option Char} {text rest : List Char}
    (found : literalLength? previous (text ++ rest) = some text.length) :
    spansAfter previous (text ++ rest) = .literal text :: spansAfter text.getLast? rest := by
  rw [spansAfter]
  split
  · rename_i length isLength
    obtain rfl : length = text.length := Option.some.inj (isLength.symm.trans found)
    rw [List.take_left, List.drop_left]
  · rename_i noLiteral
    rw [noLiteral] at found
    cases found

/-- A value is divided into its literals and the free text between them. -/
theorem spanned_spansAfter (previous : Option Char) (text : List Char) :
    Spanned previous text (spansAfter previous text) := by
  fun_induction spansAfter previous text with
  | case1 previous text length found inductionHypothesis =>
      have isLength : (text.take length).length = length := by
        rw [List.length_take, Nat.min_eq_left (literalLength?_spec rfl found).1]
      have atLiteral : literalLength? previous (text.take length ++ text.drop length) =
          some (text.take length).length := by
        rw [List.take_append_drop, isLength, found]
      have whole := Spanned.literal atLiteral inductionHypothesis
      rwa [List.take_append_drop] at whole
  | case2 previous => exact .nil
  | case3 previous c rest noLiteral inductionHypothesis =>
      have single : Quiet previous [c] rest := ⟨noLiteral, trivial⟩
      generalize spansAfter (some c) rest = spans at inductionHypothesis
      cases inductionHypothesis with
      | nil => exact .free (List.cons_ne_nil c []) single (Or.inl rfl) .nil
      | literal found later =>
          have ends : EndsBefore (some c) _ := Or.inr (Option.isSome_iff_exists.mpr ⟨_, found⟩)
          exact .free (List.cons_ne_nil c []) single ends (.literal found later)
      | free nonempty quiet ends later =>
          rename_i text _ _
          exact .free (List.cons_ne_nil c text) ⟨noLiteral, quiet⟩ ends later

namespace Spanned

theorem not_endsBefore {previous : Option Char} {text rest : List Char}
    (nonempty : text ≠ []) (quiet : Quiet previous text rest) :
    ¬ EndsBefore previous (text ++ rest) := by
  obtain ⟨c, text, rfl⟩ := List.exists_cons_of_ne_nil nonempty
  rintro (isEmpty | isLiteral)
  · cases isEmpty
  · rw [List.cons_append, quiet.1] at isLiteral
    cases isLiteral

/-- Free text that ends before a literal is one stretch. -/
theorem spansAfter_quiet {previous : Option Char} {text rest : List Char} (nonempty : text ≠ [])
    (quiet : Quiet previous text rest)
    (ends : ∀ free spans, spansAfter (lastAfter previous text) rest ≠ .free free :: spans) :
    spansAfter previous (text ++ rest) =
      .free text :: spansAfter (lastAfter previous text) rest := by
  induction text generalizing previous with
  | nil => exact absurd rfl nonempty
  | cons c text inductionHypothesis =>
      obtain ⟨noLiteral, quiet⟩ := quiet
      rw [List.cons_append, spansAfter_of_none noLiteral]
      cases text with
      | nil =>
          change consFree c (spansAfter (some c) rest) = .free [c] :: spansAfter (some c) rest
          unfold consFree
          split
          · rename_i free spans isFree
            exact absurd isFree (ends free spans)
          · rfl
      | cons d text =>
          rw [inductionHypothesis (List.cons_ne_nil d text) quiet ends]
          rfl

/-- The stretches of a value are the only ones. -/
theorem spansAfter_eq {previous : Option Char} {text : List Char} {spans : List Span}
    (spanned : Spanned previous text spans) : spansAfter previous text = spans := by
  induction spanned with
  | nil => rw [spansAfter]; rfl
  | literal found later inductionHypothesis =>
      rw [spansAfter_of_some found, inductionHypothesis]
  | @free previous text rest spans nonempty quiet ends later inductionHypothesis =>
      rw [spansAfter_quiet nonempty quiet, inductionHypothesis]
      rintro free others isFree
      rw [inductionHypothesis] at isFree
      subst isFree
      cases later with
      | free nonempty' quiet' _ _ => exact not_endsBefore nonempty' quiet' ends

/-- What ends before a literal still does after conversion. -/
theorem endsBefore {convert : List Char → List Char} {previous other : Option Char}
    {text : List Char} {spans : List Span} (spanned : Spanned previous text spans)
    (alike : other.any isNameChar = previous.any isNameChar) (ends : EndsBefore previous text) :
    EndsBefore other (spans.flatMap (Span.mapFree convert)) := by
  cases spanned with
  | nil => exact Or.inl rfl
  | literal found later =>
      have ofLiteral := (literalLength?_spec alike found).2.2
      rw [List.take_left] at ofLiteral
      exact Or.inr (Option.isSome_iff_exists.mpr ⟨_, ofLiteral _⟩)
  | free nonempty quiet _ _ => exact absurd ends (not_endsBefore nonempty quiet)

end Spanned

/-! ## Quantities in free text -/

/-- The units of the quantities of a stretch. -/
def Span.unitsOf (units : List (List Char)) : Span → List (List Char)
  | .free text => Value.unitsOf units text
  | .literal _ => []

/-- A literal in whose place a space stands divides the quantities of a value as the literal
did. -/
theorem Spanned.unitsOf_blankLiteral {units : List (List Char)}
    (names : ∀ unit ∈ units, IsUnitName unit) {previous : Option Char} {text : List Char}
    {spans : List Span} (spanned : Spanned previous text spans) :
    unitsOf units (spans.flatMap Span.blankLiteral) = spans.flatMap (Span.unitsOf units) := by
  have space : isSeparator ' ' := by decide
  induction spanned with
  | nil => exact unitsOf_nil units
  | literal found later inductionHypothesis =>
      rw [List.flatMap_cons, List.flatMap_cons, ← inductionHypothesis]
      have ofSpace := unitsOf_separator names [] space
      rw [unitsOf_nil] at ofSpace
      exact ofSpace _
  | @free _ text _ _ nonempty quiet ends later inductionHypothesis =>
      rw [List.flatMap_cons, List.flatMap_cons, ← inductionHypothesis]
      cases later with
      | nil =>
          rw [List.flatMap_nil, unitsOf_nil, List.append_nil, List.append_nil]
          rfl
      | literal found later =>
          have ofSpace := unitsOf_separator names [] space
          rw [unitsOf_nil] at ofSpace
          rw [List.flatMap_cons, Span.blankLiteral, Span.blankLiteral, List.singleton_append,
            unitsOf_separator names text space]
          exact congrArg (unitsOf units text ++ ·) (ofSpace _).symm
      | free nonempty' quiet' _ _ => exact absurd ends (Spanned.not_endsBefore nonempty' quiet')

end Value

end ContainerPreview
