import ContainerPreview.Proofs.Value.Again
import ContainerPreview.Proofs.Value.Outline
import ContainerPreview.Proofs.Value.Spans

/-!
# The literals of a converted value

A literal is closed by what it holds itself, and no literal begins in free text because what
would close it does not follow.  The outline of a value tells both.  Conversion keeps the
outline of the free text and leaves the literals alone, so a converted value has the same
literals in the same places, and the text between them is clean.  So it is converted to itself.
-/

namespace ContainerPreview

open Text

namespace Value

/-! ## Literals in the outline -/

open Reader

/-- The character begins a string. -/
def isQuote (c : Char) : Bool :=
  c == '"' || c == '\''

theorem quote_mem_marks {reader : Reader} {c quote : Char} {bare : Bool} :
    .quote quote bare ∈ reader.marks c ↔
      isQuote c ∧ quote = c ∧ bare = !reader.escaped := by
  unfold marks isQuote
  repeat' split
  all_goals simp_all

theorem closing_mem_marks {reader : Reader} {c : Char} : .closing ∈ reader.marks c ↔ c = ')' := by
  have notQuote : (')' == '"' || ')' == '\'') = false := rfl
  unfold marks
  repeat' split
  all_goals simp_all
  all_goals grind

/-- A string that is closed has its closing quote in the outline. -/
theorem quote_mem_outline {reader : Reader} {quote : Char} {text : List Char} {length : Nat}
    (quotes : isQuote quote) (notEscaped : reader.escaped = false)
    (found : stringLength? quote text = some length) :
    .quote quote true ∈ reader.outline text := by
  fun_induction stringLength? quote text generalizing reader length with
  | case1 => cases found
  | case2 => cases found
  | case3 c text isBreak => cases found
  | case4 c text notBreak inductionHypothesis =>
      obtain ⟨fewer, isFewer, -⟩ := Option.map_eq_some_iff.mp found
      have later : .quote quote true ∈ ((reader.step '\\').step c).outline text :=
        inductionHypothesis (by simp [step, notEscaped]) isFewer
      rw [outline_cons, outline_cons]
      exact List.mem_append_right _ (List.mem_append_right _ later)
  | case5 c text notEnd notEscape isClosing =>
      rw [beq_iff_eq] at isClosing
      rw [outline_cons]
      apply List.mem_append_left
      rw [quote_mem_marks, isClosing, notEscaped]
      exact ⟨quotes, rfl, rfl⟩
  | case6 c text notEnd notEscape notClosing inductionHypothesis =>
      obtain ⟨fewer, isFewer, -⟩ := Option.map_eq_some_iff.mp found
      rw [outline_cons]
      apply List.mem_append_right
      exact inductionHypothesis (by simp [step, ne_backslash notEnd notEscape]) isFewer

/-- A string that is not closed has no closing quote in the outline. -/
theorem quote_not_mem_outline {reader : Reader} {quote : Char} {text : List Char}
    (notEscaped : reader.escaped = false) (unbroken : .broken ∉ reader.outline text)
    (notFound : stringLength? quote text = none) :
    .quote quote true ∉ reader.outline text := by
  fun_induction stringLength? quote text generalizing reader with
  | case1 => simp
  | case2 =>
      rw [outline_cons, outline_nil, List.append_nil, quote_mem_marks]
      rintro ⟨isQuote, -⟩
      cases isQuote
  | case3 c text isBreak =>
      rw [beq_iff_eq] at isBreak
      refine absurd ?_ unbroken
      rw [isBreak, outline_cons, outline_cons]
      apply List.mem_append_right
      apply List.mem_append_left
      exact broken_mem_marks.mpr ⟨by simp [step, notEscaped], rfl⟩
  | case4 c text notBreak inductionHypothesis =>
      rw [outline_cons, outline_cons] at unbroken ⊢
      simp only [List.mem_append, not_or] at unbroken ⊢
      have escaped : (reader.step '\\').escaped = true := by simp [step, notEscaped]
      refine ⟨?_, ?_, ?_⟩
      · rw [quote_mem_marks]
        rintro ⟨isQuote, -⟩
        cases isQuote
      · rw [quote_mem_marks, escaped]
        rintro ⟨-, -, isBare⟩
        cases isBare
      · exact inductionHypothesis (by simp [step, notEscaped]) unbroken.2.2
          (Option.map_eq_none_iff.mp notFound)
  | case5 c text notEnd notEscape isClosing => cases notFound
  | case6 c text notEnd notEscape notClosing inductionHypothesis =>
      rw [outline_cons, List.mem_append, not_or] at unbroken ⊢
      constructor
      · rw [quote_mem_marks]
        rintro ⟨-, isClosing, -⟩
        rw [isClosing, BEq.rfl] at notClosing
        exact notClosing rfl
      · exact inductionHypothesis (by simp [step, ne_backslash notEnd notEscape]) unbroken.2
          (Option.map_eq_none_iff.mp notFound)

theorem closing_mem_outline (reader : Reader) {text : List Char} :
    .closing ∈ reader.outline text ↔ ')' ∈ text := by
  induction text generalizing reader with
  | nil => simp
  | cons c text inductionHypothesis =>
      rw [outline_cons, List.mem_append, closing_mem_marks, inductionHypothesis, List.mem_cons,
        eq_comm]

theorem addressLength?_eq_none_iff {text : List Char} :
    addressLength? text = none ↔ ')' ∉ text := by
  induction text with
  | nil => simp [addressLength?]
  | cons c text inductionHypothesis =>
      rw [addressLength?]
      split
      · rename_i isClosing
        rw [beq_iff_eq] at isClosing
        simp [isClosing]
      · rename_i notClosing
        rw [Option.map_eq_none_iff, inductionHypothesis, List.mem_cons, not_or]
        simp only [beq_iff_eq] at notClosing
        exact ⟨fun notLater => ⟨fun same => notClosing same.symm, notLater⟩, And.right⟩

/-! ## Free text in the outline -/

/-- What would close the literal that the mark begins does not follow. -/
def Mark.IsOpen (later : List Mark) : Mark → Prop
  | .quote c _ => .quote c true ∉ later
  | .address => .closing ∉ later
  | .closing | .broken => True

/-- None of the marks begins a literal before `later`. -/
def Settled : List Mark → List Mark → Prop
  | [], _ => True
  | mark :: marks, later => mark.IsOpen (marks ++ later) ∧ Settled marks later

theorem settled_append {left right later : List Mark} :
    Settled (left ++ right) later ↔ Settled left (right ++ later) ∧ Settled right later := by
  induction left with
  | nil => simp [Settled]
  | cons mark left inductionHypothesis => simp [Settled, inductionHypothesis, and_assoc]

/-- The reader is outside names where a text after `previous` is. -/
def Agrees (reader : Reader) (previous : Option Char) : Prop :=
  reader.progress = .outside ↔ previous.any isNameChar = false

theorem agrees_start : Agrees start none := by
  simp [Agrees, start]

theorem agrees_step (reader : Reader) (c : Char) : Agrees (reader.step c) (some c) := by
  unfold Agrees step Progress.step
  cases name : isNameChar c with
  | false => simp [name]
  | true =>
      simp only [if_true, Option.any_some, name]
      cases reader.progress <;> simp <;> split <;> simp

theorem Agrees.alike {reader : Reader} {previous other : Option Char}
    (agrees : Agrees reader previous) (agreesOther : Agrees reader other) :
    other.any isNameChar = previous.any isNameChar := by
  unfold Agrees at agrees agreesOther
  cases ofPrevious : previous.any isNameChar <;> cases ofOther : other.any isNameChar <;> simp_all

theorem Agrees.after {reader : Reader} {previous : Option Char} (agrees : Agrees reader previous)
    (text : List Char) : Agrees (reader.after text) (lastAfter previous text) := by
  induction text generalizing reader previous with
  | nil => exact agrees
  | cons c text inductionHypothesis => exact inductionHypothesis (agrees_step reader c)

/-- What remains to be read of the head of an address. -/
def Progress.remaining? : Progress → Option (List Char)
  | .outside => some ['u', 'r', 'l', '(']
  | .u => some ['r', 'l', '(']
  | .ur => some ['l', '(']
  | .url => some ['(']
  | .inside => none

/-- If the head of an address is read to its end here, the address is not closed. -/
def NoAddress (reader : Reader) (text : List Char) : Prop :=
  ∀ head ∈ reader.progress.remaining?, ∀ after,
    dropStartFolded? head text = some after → addressLength? after = none

/-- Within the head of an address the last character was the one that was to be read. -/
theorem Progress.remaining?_step {progress : Progress} {c : Char} {head : List Char}
    (within : progress.step c ≠ .outside) (remaining : (progress.step c).remaining? = some head) :
    ∃ letter, progress.remaining? = some (letter :: head) ∧ sameLetter letter c := by
  unfold step at within remaining
  split at remaining
  · cases progress with
    | outside =>
        by_cases same : sameLetter 'u' c
        · exact ⟨'u', by simpa [same, remaining?] using remaining, same⟩
        · simp [same, remaining?] at remaining
    | u =>
        by_cases same : sameLetter 'r' c
        · exact ⟨'r', by simpa [same, remaining?] using remaining, same⟩
        · simp [same, remaining?] at remaining
    | ur =>
        by_cases same : sameLetter 'l' c
        · exact ⟨'l', by simpa [same, remaining?] using remaining, same⟩
        · simp [same, remaining?] at remaining
    | url => simp [remaining?] at remaining
    | inside => simp [remaining?] at remaining
  · rename_i notName
    rw [if_neg notName] at within
    exact absurd rfl within

theorem NoAddress.step {reader : Reader} {c : Char} {text : List Char}
    (noAddress : NoAddress reader (c :: text)) (within : (reader.step c).progress ≠ .outside) :
    NoAddress (reader.step c) text := by
  intro head remaining after dropped
  obtain ⟨letter, isHead, same⟩ := Progress.remaining?_step within remaining
  exact noAddress _ isHead after (by rw [dropStartFolded?, if_pos same, dropped])

/-- Where no literal begins, neither a string nor an address does. -/
theorem of_literalLength?_eq_none {reader : Reader} {previous : Option Char} {c : Char}
    {text : List Char} (agrees : Agrees reader previous)
    (noLiteral : literalLength? previous (c :: text) = none) :
    (isQuote c → stringLength? c text = none) ∧
      (reader.progress = .outside → NoAddress reader (c :: text)) := by
  rw [literalLength?] at noLiteral
  constructor
  · intro quotes
    rw [isQuote] at quotes
    rw [if_pos quotes] at noLiteral
    exact Option.map_eq_none_iff.mp noLiteral
  · intro outside head isHead after dropped
    rw [outside] at isHead
    cases isHead
    have notQuote : ¬(c == '"' || c == '\'') := by
      intro quotes
      obtain ⟨d, rest, isText, same, -⟩ := exists_of_dropStartFolded?_cons dropped
      cases isText
      simp only [Bool.or_eq_true, beq_iff_eq] at quotes
      rcases quotes with rfl | rfl
      · exact absurd same (by decide)
      · exact absurd same (by decide)
    rw [if_neg notQuote, agrees.mp outside, if_neg (by simp)] at noLiteral
    rw [dropped] at noLiteral
    exact Option.map_eq_none_iff.mp noLiteral

/-- In a text in which no literal begins, the marks tell so. -/
theorem settled_of_quiet {reader : Reader} {previous : Option Char} {text rest : List Char}
    (agrees : Agrees reader previous) (unbroken : .broken ∉ reader.outline (text ++ rest))
    (noAddress : reader.progress ≠ .outside → NoAddress reader (text ++ rest))
    (quiet : Quiet previous text rest) :
    Settled (reader.outline text) ((reader.after text).outline rest) := by
  induction text generalizing reader previous with
  | nil => trivial
  | cons c text inductionHypothesis =>
      obtain ⟨noString, atOutside⟩ := of_literalLength?_eq_none agrees quiet.1
      have noAddressHere : NoAddress reader (c :: (text ++ rest)) := by
        by_cases outside : reader.progress = .outside
        · exact atOutside outside
        · exact noAddress outside
      rw [List.cons_append, outline_cons, List.mem_append, not_or] at unbroken
      rw [outline_cons, after_cons, settled_append, ← outline_append]
      refine ⟨?_, inductionHypothesis (agrees_step reader c) unbroken.2
        (fun within => noAddressHere.step within) quiet.2⟩
      unfold marks
      split
      · rename_i quotes
        refine ⟨?_, trivial⟩
        have notBackslash : c ≠ '\\' := by
          rintro rfl
          cases quotes
        exact quote_not_mem_outline (by simp [step, notBackslash]) unbroken.2 (noString quotes)
      · split
        · exact ⟨trivial, trivial⟩
        · split
          · rename_i isAddress
            simp only [Bool.and_eq_true, beq_iff_eq] at isAddress
            refine ⟨?_, trivial⟩
            rw [List.nil_append, Mark.IsOpen, closing_mem_outline, ← addressLength?_eq_none_iff]
            apply noAddressHere ['('] (by rw [isAddress.1]; rfl)
            rw [dropStartFolded?, if_pos isAddress.2, dropStartFolded?]
          · split
            · exact ⟨trivial, trivial⟩
            · trivial

theorem literalLength?_in_name {c d : Char} {text : List Char} (name : isNameChar c)
    (notQuote : isQuote d = false) : literalLength? (some c) (d :: text) = none := by
  rw [isQuote] at notQuote
  simp [literalLength?, notQuote, name]

/-- The letters of the head of an address. -/
theorem class_of_head {c : Char} (isAscii : c.toNat < 128)
    (inHead : sameLetter 'u' c ∨ sameLetter 'r' c ∨ sameLetter 'l' c) :
    isNameChar c ∧ isQuote c = false ∧ isSilent c :=
  forall_ascii (fun c => sameLetter 'u' c ∨ sameLetter 'r' c ∨ sameLetter 'l' c →
    isNameChar c ∧ isQuote c = false ∧ isSilent c) (by decide) isAscii inHead

/-- The head of an address does not reach over the end of free text: a literal begins neither
inside a name nor with a parenthesis. -/
theorem exists_of_head (previous : Option Char) {text rest after : List Char}
    (ascii : IsAscii (text ++ rest)) (nonempty : text ≠ [])
    (ends : EndsBefore (lastAfter previous text) rest)
    (dropped : dropStartFolded? ['u', 'r', 'l', '('] (text ++ rest) = some after) :
    ∃ a b c text', text = a :: b :: c :: '(' :: text' ∧ text' ++ rest = after ∧
      sameLetter 'u' a ∧ sameLetter 'r' b ∧ sameLetter 'l' c := by
  obtain ⟨a, afterA, sameA, isA, dropped⟩ := exists_of_dropStartFolded?_cons dropped
  obtain ⟨b, afterB, rfl, isB, dropped⟩ := exists_of_dropStartFolded?_cons dropped
  obtain ⟨c, afterC, rfl, isC, dropped⟩ := exists_of_dropStartFolded?_cons dropped
  obtain ⟨d, afterD, rfl, isD, dropped⟩ := exists_of_dropStartFolded?_cons dropped
  cases dropped
  rw [sameA, IsAscii] at ascii
  simp only [List.forall_mem_cons] at ascii
  obtain ⟨asciiA, asciiB, asciiC, asciiD, -⟩ := ascii
  obtain rfl := class_of_opening asciiD isD
  have classA := class_of_head asciiA (Or.inl isA)
  have classB := class_of_head asciiB (Or.inr (Or.inl isB))
  have classC := class_of_head asciiC (Or.inr (Or.inr isC))
  have inName : ∀ {c d : Char} {rest' : List Char}, lastAfter previous text = some c →
      isNameChar c → isQuote d = false → rest ≠ d :: rest' := by
    rintro c d rest' isLast name notQuote rfl
    rcases ends with isEmpty | isLiteral
    · cases isEmpty
    · rw [isLast, literalLength?_in_name name notQuote] at isLiteral
      cases isLiteral
  rcases text with _ | ⟨_, _ | ⟨_, _ | ⟨_, _ | ⟨_, text'⟩⟩⟩⟩
  · exact absurd rfl nonempty
  · cases sameA
    exact absurd rfl (inName rfl classA.1 classB.2.1)
  · cases sameA
    exact absurd rfl (inName rfl classB.1 classC.2.1)
  · cases sameA
    exact absurd rfl (inName rfl classC.1 (by decide))
  · cases sameA
    exact ⟨a, b, c, text', rfl, rfl, isA, isB, isC⟩

/-- The head of an address leaves its mark. -/
theorem outline_of_head {reader : Reader} (outside : reader.progress = .outside) {a b c : Char}
    (text : List Char) (ascii : IsAscii [a, b, c]) (isA : sameLetter 'u' a)
    (isB : sameLetter 'r' b) (isC : sameLetter 'l' c) :
    ∃ reader' : Reader, reader.outline (a :: b :: c :: '(' :: text) =
      .address :: reader'.outline text ∧
        ∀ rest, (reader.after (a :: b :: c :: '(' :: text)).outline rest =
          (reader'.after text).outline rest := by
  simp only [IsAscii, List.forall_mem_cons] at ascii
  obtain ⟨asciiA, asciiB, asciiC, -⟩ := ascii
  have classA := class_of_head asciiA (Or.inl isA)
  have classB := class_of_head asciiB (Or.inr (Or.inl isB))
  have classC := class_of_head asciiC (Or.inr (Or.inr isC))
  have read : (((reader.step a).step b).step c).progress = .url := by
    simp [step, Progress.step, outside, classA.1, classB.1, classC.1, isA, isB, isC]
  have opening : (((reader.step a).step b).step c).marks '(' = [.address] := by
    have same : sameLetter '(' '(' = true := by decide
    simp [marks, read, same]
  refine ⟨(((reader.step a).step b).step c).step '(', ?_, fun rest => rfl⟩
  rw [outline_cons, outline_cons, outline_cons, outline_cons,
    marks_of_isSilent reader classA.2.2, marks_of_isSilent _ classB.2.2,
    marks_of_isSilent _ classC.2.2, opening]
  rfl

/-- In a text whose marks begin no literal, none begins. -/
theorem quiet_of_settled {reader : Reader} {previous : Option Char} {text rest : List Char}
    (ascii : IsAscii (text ++ rest)) (agrees : Agrees reader previous)
    (ends : EndsBefore (lastAfter previous text) rest)
    (settled : Settled (reader.outline text) ((reader.after text).outline rest)) :
    Quiet previous text rest := by
  induction text generalizing reader previous with
  | nil => trivial
  | cons c text inductionHypothesis =>
      have whole := settled
      rw [outline_cons, after_cons, settled_append] at settled
      refine ⟨?_, inductionHypothesis (List.forall_mem_cons.mp ascii).2 (agrees_step reader c)
        ends settled.2⟩
      rw [literalLength?]
      split
      · rename_i quotes
        rw [Option.map_eq_none_iff, ← Option.not_isSome_iff_eq_none, Option.isSome_iff_exists]
        rintro ⟨length, found⟩
        have notBackslash : c ≠ '\\' := by
          rintro rfl
          cases quotes
        have closed : .quote c true ∈ (reader.step c).outline (text ++ rest) :=
          quote_mem_outline quotes (by simp [step, notBackslash]) found
        have marks : reader.marks c = [.quote c !reader.escaped] := by
          rw [Reader.marks, if_pos quotes]
        rw [marks, ← outline_append] at settled
        exact settled.1.1 closed
      · split
        · rfl
        · rename_i notInName
          split
          · rename_i after dropped
            rw [Option.map_eq_none_iff, addressLength?_eq_none_iff]
            have outside : reader.progress = .outside := agrees.mpr (by simpa using notInName)
            obtain ⟨a, b, d, text', isText, rfl, isA, isB, isD⟩ :=
              exists_of_head previous ascii (List.cons_ne_nil c text) ends dropped
            rw [isText] at whole ascii
            obtain ⟨reader', isOutline, isAfter⟩ := outline_of_head outside text'
              (fun e member => ascii e (by simp at member ⊢; tauto)) isA isB isD
            rw [isOutline, isAfter] at whole
            rw [← closing_mem_outline reader', outline_append]
            exact whole.1
          · rfl

/-! ## Converted values -/

section Settled

variable {scheme : Scheme}

/-- A stretch after conversion. -/
def Span.converted (scheme : Scheme) : Span → Span
  | .free text => .free (scheme.convertCalls true text)
  | .literal text => .literal text

theorem convertCalls_spec (settles : scheme.Settles) {text : List Char} (ascii : IsAscii text) :
    IsAscii (scheme.convertCalls true text) ∧
      unitsOf scheme.names (scheme.convertCalls true text) = [] ∧
        scheme.convertCalls true (scheme.convertCalls true text) = scheme.convertCalls true text := by
  have arranges := Scheme.arranges_convertAt settles.hasNames .whole text
  exact ⟨arranges.isAscii settles ascii, arranges.unitsOf_eq_nil settles ascii,
    ((arranges.again settles ascii).eq_convertAt settles.hasNames).symm⟩

theorem Spanned.isAscii (settles : scheme.Settles) {previous : Option Char}
    {text : List Char} {spans : List Span} (spanned : Spanned previous text spans)
    (ascii : IsAscii text) :
    IsAscii (spans.flatMap (Span.mapFree (scheme.convertCalls true))) := by
  induction spanned with
  | nil => exact ascii
  | literal found later inductionHypothesis =>
      obtain ⟨asciiLiteral, asciiRest⟩ := List.forall_mem_append.mp ascii
      exact List.forall_mem_append.mpr ⟨asciiLiteral, inductionHypothesis asciiRest⟩
  | free nonempty quiet ends later inductionHypothesis =>
      obtain ⟨asciiFree, asciiRest⟩ := List.forall_mem_append.mp ascii
      exact List.forall_mem_append.mpr
        ⟨(convertCalls_spec settles asciiFree).1, inductionHypothesis asciiRest⟩

/-- Conversion keeps the outline of a value and its literals, where it stands at a start or
before a literal. -/
theorem Spanned.converted (settles : scheme.Settles) {reader : Reader}
    {previous other : Option Char} {text : List Char} {spans : List Span}
    (spanned : Spanned previous text spans) (ascii : IsAscii text)
    (unbroken : .broken ∉ reader.outline text) (agrees : Agrees reader previous)
    (agreesOther : Agrees reader other) (ready : reader = start ∨ EndsBefore previous text) :
    reader.Same text (spans.flatMap (Span.mapFree (scheme.convertCalls true))) ∧
      Spanned other (spans.flatMap (Span.mapFree (scheme.convertCalls true)))
        (spans.map (Span.converted scheme)) := by
  induction spanned generalizing reader other with
  | nil => exact ⟨Same.refl reader [], .nil⟩
  | @literal previous literal rest spans found later inductionHypothesis =>
      obtain ⟨-, ⟨inside, last, isLiteral, separates, notBackslash⟩, ofLiteral⟩ :=
        literalLength?_spec (agrees.alike agreesOther) found
      have notName := (notNumber_of_isSeparator separates).1
      rw [List.take_left] at isLiteral ofLiteral
      have anew : reader.after literal = start := by
        rw [isLiteral, after_append]
        exact step_eq_start _ notName notBackslash
      have agreesLast : Agrees start literal.getLast? := by
        rw [isLiteral, List.getLast?_concat]
        simp [Agrees, start, notName]
      rw [outline_append, anew, List.mem_append, not_or] at unbroken
      obtain ⟨sameRest, spannedRest⟩ := inductionHypothesis (List.forall_mem_append.mp ascii).2
        unbroken.2 agreesLast agreesLast (Or.inl rfl)
      constructor
      · exact (Same.refl reader literal).append_at anew sameRest
      · exact .literal (ofLiteral _) spannedRest
  | @free previous free rest spans nonempty quiet ends later inductionHypothesis =>
      obtain rfl : reader = start := ready.resolve_right (not_endsBefore nonempty quiet)
      obtain ⟨asciiFree, asciiRest⟩ := List.forall_mem_append.mp ascii
      have settled := settled_of_quiet agrees unbroken (fun within => absurd rfl within) quiet
      rw [outline_append, List.mem_append, not_or] at unbroken
      have arranges := Scheme.arranges_convertAt settles.hasNames .whole free
      have sameFree : start.Same free (scheme.convertCalls true free) :=
        (arranges.same settles asciiFree unbroken.1).1 (by decide)
      have nonemptyOutput : scheme.convertCalls true free ≠ [] :=
        (arranges.alike settles.toHasWords (by decide)).2.ne_nil nonempty
      have agreesEnd := agreesOther.after (scheme.convertCalls true free)
      have asciiOutput := (convertCalls_spec settles asciiFree).1
      rw [sameFree.2] at agreesEnd
      obtain ⟨sameRest, spannedRest⟩ := inductionHypothesis asciiRest unbroken.2
        (agrees.after free) agreesEnd (Or.inr ends)
      have endsOutput : EndsBefore (lastAfter other (scheme.convertCalls true free))
          (spans.flatMap (Span.mapFree (scheme.convertCalls true))) :=
        later.endsBefore ((agrees.after free).alike agreesEnd) ends
      have quietOutput : Quiet other (scheme.convertCalls true free)
          (spans.flatMap (Span.mapFree (scheme.convertCalls true))) :=
        quiet_of_settled
          (List.forall_mem_append.mpr ⟨asciiOutput, later.isAscii settles asciiRest⟩) agreesOther
          endsOutput (by rw [sameFree.1, sameFree.2, sameRest.1]; exact settled)
      exact ⟨sameFree.append sameRest, .free nonemptyOutput quietOutput endsOutput spannedRest⟩

theorem isAscii_free {value text : List Char} (ascii : IsAscii value)
    (isFree : .free text ∈ spans value) : IsAscii text := by
  intro c member
  apply ascii
  rw [← flatMap_text_spansAfter none value]
  exact List.mem_flatMap.mpr ⟨_, isFree, member⟩

/-- The stretches of a converted value are the converted stretches of the value. -/
theorem spans_convert (settles : scheme.Settles) {value : List Char} (ascii : IsAscii value)
    (unbroken : Unbroken value) :
    spans (scheme.convert value) = (spans value).map (Span.converted scheme) :=
  ((spanned_spansAfter none value).converted settles ascii unbroken agrees_start agrees_start
    (Or.inl rfl)).2.spansAfter_eq

/-- A converted value is in ASCII, and no backslash takes an end of line in it. -/
theorem isUnbroken_convert (settles : scheme.Settles) {value : List Char} (ascii : IsAscii value)
    (unbroken : Unbroken value) : IsAscii (scheme.convert value) ∧ Unbroken (scheme.convert value) := by
  have spanned := spanned_spansAfter none value
  obtain ⟨same, -⟩ :=
    spanned.converted settles ascii unbroken agrees_start agrees_start (Or.inl rfl)
  refine ⟨spanned.isAscii settles ascii, ?_⟩
  rw [Unbroken, Scheme.convert, mapFree, spans, same.1]
  exact unbroken

/-- A converted value uses no unit of the scheme outside its literals. -/
theorem unitsOf_convert (settles : scheme.Settles) {value : List Char} (ascii : IsAscii value)
    (unbroken : Unbroken value) :
    unitsOf scheme.names (blankLiterals (scheme.convert value)) = [] := by
  have spanned := spanned_spansAfter none (scheme.convert value)
  rw [blankLiterals, spans, spanned.unitsOf_blankLiteral settles.hasNames, ← spans,
    spans_convert settles ascii unbroken, List.flatMap_map, List.flatMap_eq_nil_iff]
  intro span member
  cases span with
  | free text => exact (convertCalls_spec settles (isAscii_free ascii member)).2.1
  | literal text => rfl

/-- A converted value is converted to itself. -/
theorem convert_convert (settles : scheme.Settles) {value : List Char} (ascii : IsAscii value)
    (unbroken : Unbroken value) :
    scheme.convert (scheme.convert value) = scheme.convert value := by
  rw [Scheme.convert, mapFree, spans_convert settles ascii unbroken, List.flatMap_map]
  refine List.flatMap_congr fun span member => ?_
  cases span with
  | free text => exact (convertCalls_spec settles (isAscii_free ascii member)).2.2
  | literal text => rfl

end Settled

end Value

open Value

namespace Converter

/-- The value uses a unit of a scheme whose units are those of the general map. -/
theorem hasUnits_eq_false_iff {converter : Converter} {scheme : Scheme}
    (hasNames : scheme.HasNames)
    (same : ∀ unit, unit ∈ scheme.names ↔ unit ∈ converter.general.names) (value : String) :
    converter.hasUnits value = false ↔ unitsOf scheme.names (blankLiterals value.toList) = [] := by
  rw [hasUnits, unitsIn, unitsOf, pieces_congr hasNames same, Bool.not_eq_false',
    List.isEmpty_iff, List.map_eq_nil_iff]

/-- The converter with the maps that are used by default. -/
def standard : Converter :=
  .ofMaps .standard (some .standardTypography)

/-- The schemes of a converter settle if its maps do, and have the same units if its maps have. -/
theorem settles_schemeFor {units typography : UnitMap} {typographyUnits : Option UnitMap}
    (isMap : (ofMaps units typographyUnits).typographyUnits = typography.lowerUnits)
    (settles : units.Settles) (settlesTypography : typography.Settles)
    (sameKeys : ∀ name, name ∈ units.map Prod.fst ↔ name ∈ typography.map Prod.fst)
    (property : String) :
    ((ofMaps units typographyUnits).schemeFor property).Settles ∧
      ∀ unit, unit ∈ ((ofMaps units typographyUnits).schemeFor property).names ↔
        unit ∈ (ofMaps units typographyUnits).general.names := by
  have isGeneral : (ofMaps units typographyUnits).general.units = units.lowerUnits := rfl
  have isTypography : (ofMaps units typographyUnits).typography.units = typography.lowerUnits :=
    isMap
  have moved : ∀ {units units' : UnitMap},
      (∀ name, name ∈ units.map Prod.fst → name ∈ units'.map Prod.fst) → ∀ {unit : List Char},
        (∃ entry ∈ units, lower entry.1.toList = unit) →
          ∃ entry ∈ units', lower entry.1.toList = unit := by
    rintro units units' keys unit ⟨entry, member, same⟩
    obtain ⟨other, isOther, sameKey⟩ := List.mem_map.mp (keys _ (List.mem_map_of_mem member))
    exact ⟨other, isOther, by rw [sameKey, same]⟩
  rw [schemeFor]
  split
  · refine ⟨Scheme.settles_of_lowerUnits isTypography settlesTypography, fun unit => ?_⟩
    rw [Scheme.mem_names_of_lowerUnits isTypography, Scheme.mem_names_of_lowerUnits isGeneral]
    exact ⟨moved fun name => (sameKeys name).mpr, moved fun name => (sameKeys name).mp⟩
  · exact ⟨Scheme.settles_of_lowerUnits isGeneral settles, fun unit => Iff.rfl⟩

theorem settles_standard : UnitMap.standard.Settles ∧ UnitMap.standardTypography.Settles := by
  constructor <;> constructor <;> decide

theorem settles_schemeFor_standard (property : String) :
    (standard.schemeFor property).Settles ∧
      ∀ unit, unit ∈ (standard.schemeFor property).names ↔ unit ∈ standard.general.names := by
  have sameKeys : UnitMap.standardTypography.map Prod.fst = UnitMap.standard.map Prod.fst := by
    rw [UnitMap.standardTypography, UnitMap.forTypography, List.map_map]
    rfl
  have isMap : (ofMaps .standard (some .standardTypography)).typographyUnits =
      UnitMap.standardTypography.lowerUnits := rfl
  exact settles_schemeFor isMap settles_standard.1 settles_standard.2
    (fun name => by rw [sameKeys]) property

/-- A value converted by the standard maps is in ASCII, has no end of line that a backslash
takes, and uses no viewport unit. -/
theorem convertFor_standard (property : String) {value : String} (ascii : IsAscii value.toList)
    (unbroken : isUnbroken false value.toList) :
    IsAscii (standard.convertFor property value).toList ∧
      isUnbroken false (standard.convertFor property value).toList ∧
        standard.hasUnits (standard.convertFor property value) = false := by
  obtain ⟨settles, sameNames⟩ := settles_schemeFor_standard property
  obtain ⟨asciiOutput, unbrokenOutput⟩ :=
    isUnbroken_convert settles ascii (isUnbroken_iff.mp unbroken)
  rw [hasUnits_eq_false_iff settles.hasNames sameNames, convertFor, String.toList_ofList]
  exact ⟨asciiOutput, isUnbroken_iff.mpr unbrokenOutput,
    unitsOf_convert settles ascii (isUnbroken_iff.mp unbroken)⟩

end Converter

end ContainerPreview
