import ContainerPreview.Proofs.Css.Content
import ContainerPreview.Proofs.Css.Number
import ContainerPreview.Proofs.Css.Sign
import ContainerPreview.Text.Blank

/-!
# Kinds of cuts

Every sign that is cut from a text ends where it does because of what follows it.  What must
not follow a sign is described by bars: marks and a character after them.  Which kind of sign
is cut is decided by the first characters of the text.
-/

namespace ContainerPreview.Css

open Text

/-! ## Cuts -/

/-- The sign is cut from the start of a text and takes the given part of it. -/
def Cuts (taken : List Char) (sign : Sign) (rest : List Char) : Prop :=
  ∃ c more, taken = c :: more ∧ signsAt c (more ++ rest) = ([sign], taken.length)

theorem Cuts.signsOf {taken rest : List Char} {sign : Sign} (cut : Cuts taken sign rest) :
    signsOf (taken ++ rest) = sign :: signsOf rest := by
  obtain ⟨c, more, rfl, isCut⟩ := cut
  exact signsOf_cons isCut

/-- The text of a sign. -/
def Sign.write : Sign → List Char
  | .lexeme content => writeLexeme content
  | .opening .curly => ['\x7b']
  | .opening .square => ['[']
  | .opening .round => ['(']
  | .opening (.function name) => writeIdent name ++ ['(']
  | .closing closer => [closer]

/-! ## What must not follow -/

/-- Marks and a character after them with which a sign would go on. -/
structure Bar where
  marks : List Char
  last : Char → Bool

/-- A text starts with the marks of a bar and such a character. -/
def Bar.Meets (bar : Bar) (text : List Char) : Prop :=
  ∃ c rest, text = bar.marks ++ c :: rest ∧ bar.last c

/-- A character that a code point or a question mark in a range begins with. -/
def isRangeChar (c : Char) : Bool :=
  isHex c || c == '?'

/-- A character that an identifier begins with. -/
def isIdentMark (c : Char) : Bool :=
  startsName c || c == '\\'

/-- What a name goes on with. -/
def nameBars : List Bar :=
  [⟨[], fun c => isInName c || c == '\\'⟩]

/-- What makes an identifier of a text that does not start with one. -/
def identBars : List Bar :=
  [⟨[], isIdentMark⟩, ⟨['-'], fun c => isIdentMark c || c == '-'⟩]

/-- What makes a longer token of a single character. -/
def charBars (c : Char) : List Bar :=
  if c == '-' then [⟨[], fun c => isIdentMark c || c == '-' || c.isDigit⟩, ⟨['.'], Char.isDigit⟩]
  else if c == '+' then [⟨[], Char.isDigit⟩, ⟨['.'], Char.isDigit⟩]
  else if c == '.' then [⟨[], Char.isDigit⟩]
  else if c == '@' then identBars
  else if c == '#' then nameBars
  else if c == '/' then [⟨[], (· == '*')⟩]
  else if c == '<' then [⟨['!', '-'], (· == '-')⟩]
  else if c == '|' then [⟨[], fun c => c == '|' || c == '='⟩]
  else if ['~', '^', '$', '*'].contains c then [⟨[], (· == '=')⟩]
  else []

/-- What a sign goes on with. -/
def Sign.bars : Sign → List Bar
  | .lexeme (.blank _) => [⟨[], isGap⟩]
  | .lexeme (.literal [c]) => charBars c
  | .lexeme (.ident name) =>
      ⟨[], (· == '(')⟩ :: nameBars ++
        (if name == ['u'] || name == ['U'] then [⟨['+'], isRangeChar⟩]
        else if name == ['-', '-'] then [⟨[], (· == '>')⟩] else [])
  | .lexeme (.atKeyword _) | .lexeme (.hash _ _) | .lexeme (.dimension _ _) => nameBars
  | .lexeme (.number text) =>
      ⟨[], fun c => c.isDigit || c == '%'⟩ :: identBars ++
        (if text.all isWholeChar then [⟨['.'], Char.isDigit⟩] else [])
  | .lexeme (.codeRange _ _) => [⟨[], isRangeChar⟩, ⟨['-'], isHex⟩]
  | _ => []

/-- A quote follows, maybe after blanks. -/
def startsQuoted (text : List Char) : Bool :=
  (text.drop (gapLength text)).head?.any fun c => c == '"' || c == '\''

/-- The opening of a function that is one only because a quote follows. -/
def Sign.needsQuote : Sign → Bool
  | .opening (.function name) => lowerAscii name == "url".toList
  | _ => false

/-- The sign ends where the text begins. -/
structure Sign.EndsBefore (sign : Sign) (rest : List Char) : Prop where
  noBar : ∀ bar ∈ sign.bars, ¬bar.Meets rest
  quoted : sign.needsQuote → startsQuoted rest

/-- No backslash stands before a line end at the start of the text or after a hyphen there. -/
structure NoLooseBackslash (text : List Char) : Prop where
  first : ∀ rest, text ≠ '\\' :: '\n' :: rest
  second : ∀ rest, text ≠ '-' :: '\\' :: '\n' :: rest

theorem Bar.meets_nil {last : Char → Bool} {text : List Char} :
    (Bar.mk [] last).Meets text ↔ text.head?.any last := by
  constructor
  · rintro ⟨c, rest, rfl, isLast⟩
    exact isLast
  · intro isLast
    cases text with
    | nil => cases isLast
    | cons c rest => exact ⟨c, rest, rfl, isLast⟩

theorem Bar.meets_cons {mark : Char} {marks : List Char} {last : Char → Bool} {text : List Char} :
    (Bar.mk (mark :: marks) last).Meets text ↔
      ∃ rest, text = mark :: rest ∧ (Bar.mk marks last).Meets rest := by
  constructor
  · rintro ⟨c, rest, rfl, isLast⟩
    exact ⟨marks ++ c :: rest, rfl, c, rest, rfl, isLast⟩
  · rintro ⟨_, rfl, c, rest, rfl, isLast⟩
    exact ⟨c, rest, rfl, isLast⟩

theorem startsEscape_of_head {text : List Char} (isHead : text.head? = some '\\')
    (notLoose : ∀ rest, text ≠ '\\' :: '\n' :: rest) : startsEscape text := by
  cases text with
  | nil => cases isHead
  | cons c rest =>
      obtain rfl := Option.some.inj isHead
      cases rest with
      | nil => rfl
      | cons d rest =>
          refine startsEscape_backslash ?_ rest
          rintro rfl
          exact notLoose rest rfl

theorem head_of_startsEscape {text : List Char} (escapes : startsEscape text) :
    text.head? = some '\\' := by
  unfold startsEscape at escapes
  split at escapes
  · cases escapes
  · rfl
  · cases escapes

/-- A name ends where its bar says that it does. -/
theorem continuesName_of_nameBars {text : List Char} (ends : ∀ bar ∈ nameBars, ¬bar.Meets text) :
    continuesName text = false := by
  have noBar := ends _ List.mem_cons_self
  rw [Bar.meets_nil] at noBar
  rw [continuesName, Bool.or_eq_false_iff]
  constructor
  · cases text with
    | nil => rfl
    | cons c rest => simp_all
  · refine Bool.eq_false_iff.mpr fun escapes => noBar ?_
    rw [head_of_startsEscape escapes]
    rfl

theorem nameBars_of_not_continuesName {text : List Char} (ends : continuesName text = false)
    (notLoose : NoLooseBackslash text) : ∀ bar ∈ nameBars, ¬bar.Meets text := by
  rw [continuesName, Bool.or_eq_false_iff] at ends
  intro bar member
  obtain rfl := List.mem_singleton.mp member
  rw [Bar.meets_nil]
  intro meets
  cases text with
  | nil => cases meets
  | cons c rest =>
      simp only [List.head?_cons, Option.any_some, Bool.or_eq_true, beq_iff_eq] at meets ends
      rcases meets with inName | rfl
      · rw [inName] at ends
        cases ends.1
      · rw [startsEscape_of_head rfl notLoose.first] at ends
        cases ends.2

theorem startsIdent_cons {c : Char} (notHyphen : c ≠ '-') (rest : List Char) :
    startsIdent (c :: rest) = (startsName c || startsEscape (c :: rest)) := by
  rw [startsIdent]
  simp [notHyphen]

/-- No identifier starts where its bars say that none does. -/
theorem startsIdent_of_identBars {text : List Char} (ends : ∀ bar ∈ identBars, ¬bar.Meets text) :
    startsIdent text = false := by
  simp only [identBars, List.forall_mem_cons, Bar.meets_nil, Bar.meets_cons] at ends
  obtain ⟨notHere, notAfterHyphen, -⟩ := ends
  have noEscape : ∀ {text : List Char}, ¬text.head?.any isIdentMark → startsEscape text = false :=
    fun notMark => Bool.eq_false_iff.mpr fun escapes => notMark (by
      rw [head_of_startsEscape escapes]
      rfl)
  cases text with
  | nil => rfl
  | cons c rest =>
      by_cases hyphen : c = '-'
      · subst hyphen
        have notAny : ¬rest.head?.any fun c => isIdentMark c || c == '-' := fun any =>
          notAfterHyphen ⟨rest, rfl, any⟩
        have notMark : ¬rest.head?.any isIdentMark := fun any => notAny (by
          cases rest <;> simp_all)
        rw [startsIdent, noEscape notMark, Bool.or_false]
        cases rest <;> simp_all [isIdentMark]
      · rw [startsIdent_cons hyphen, noEscape notHere]
        simp_all [isIdentMark]

theorem identBars_of_not_startsIdent {text : List Char} (ends : startsIdent text = false)
    (notLoose : NoLooseBackslash text) : ∀ bar ∈ identBars, ¬bar.Meets text := by
  simp only [identBars, List.forall_mem_cons, Bar.meets_nil, Bar.meets_cons]
  refine ⟨?_, ?_, by simp⟩
  · intro isMark
    cases text with
    | nil => cases isMark
    | cons c rest =>
        simp only [isIdentMark, List.head?_cons, Option.any_some, Bool.or_eq_true, beq_iff_eq] at isMark
        rcases isMark with starts | rfl
        · rw [startsIdent_of_startsName starts] at ends
          cases ends
        · rw [startsIdent_of_startsEscape (startsEscape_of_head rfl notLoose.first)] at ends
          cases ends
  · rintro ⟨rest, rfl, isMark⟩
    rw [startsIdent, Bool.or_eq_false_iff] at ends
    cases rest with
    | nil => cases isMark
    | cons c rest =>
        simp only [isIdentMark, List.head?_cons, Option.any_some, Bool.or_eq_true, beq_iff_eq,
          Bool.or_eq_false_iff, beq_eq_false_iff_ne] at isMark ends
        rcases isMark with (starts | rfl) | rfl
        · rw [starts] at ends
          cases ends.1.1
        · have escapes : startsEscape ('\\' :: rest) :=
            startsEscape_of_head rfl fun more isLoose => notLoose.second more (by rw [isLoose])
          rw [escapes] at ends
          cases ends.2
        · exact ends.1.2 rfl

/-! ## Kinds of cuts -/

/-- A range of code points begins here. -/
def opensRange (c : Char) (rest : List Char) : Bool :=
  (c == 'u' || c == 'U') && rest.head? == some '+' && rest.tail.head?.any isRangeChar

/-- The end of a comment of the surrounding language begins here. -/
def opensArrow (c : Char) (rest : List Char) : Bool :=
  (dropStart? "-->".toList (c :: rest)).isSome

/-- A character that a longer kind of token always begins with. -/
def isSpecial (c : Char) : Bool :=
  isGap c || c == '@' || c == '#' || c == '\x7b' || c == '[' || c == '(' || c == '\x7d' ||
    c == ']' || c == ')' || c == '"' || c == '\''

/-- The bracket that opens a group without a name. -/
def Opener.bracket? : Opener → Option Char
  | .curly => some '\x7b'
  | .square => some '['
  | .round => some '('
  | .function _ => none

/-- The kinds of cuts, with what is known of the text in each. -/
inductive CutCase (c : Char) (rest : List Char) : List Sign × Nat → Prop where
  | blank (gap : isGap c) :
      CutCase c rest (oneLexeme (.blank ((c :: rest).take (gapLength (c :: rest))))
        (gapLength (c :: rest)))
  | range (range : opensRange c rest) :
      CutCase c rest (oneLexeme
        (.codeRange (codeRangeAt rest.tail).1 (codeRangeAt rest.tail).2.1)
        ((codeRangeAt rest.tail).2.2 + 2))
  | arrow (arrow : opensArrow c rest) : CutCase c rest (literalOf (c :: rest) 3)
  | ident (notRange : opensRange c rest = false) (notArrow : opensArrow c rest = false)
      (starts : startsIdent (c :: rest)) : CutCase c rest (identSigns (c :: rest))
  | number (length : Nat) (isNumber : numberLength? (c :: rest) = some length) :
      CutCase c rest (numberSign (c :: rest) length)
  | marked (isMark : c = '@' ∨ c = '#') : CutCase c rest (markedName c rest)
  | opening (opener : Opener) (isBracket : opener.bracket? = some c) :
      CutCase c rest ([.opening opener], 1)
  | closing (isCloser : c = '\x7d' ∨ c = ']' ∨ c = ')') : CutCase c rest ([.closing c], 1)
  | string (isQuote : c = '"' ∨ c = '\'') : CutCase c rest (stringSigns c rest)
  | short (notIdent : startsIdent (c :: rest) = false)
      (notNumber : numberLength? (c :: rest) = none) (notSpecial : isSpecial c = false) :
      CutCase c rest (shortSign c rest)

theorem gapLength_eq_zero {c : Char} (notGap : isGap c = false) (rest : List Char) :
    gapLength (c :: rest) = 0 := by
  simp [gapLength, notGap]

theorem cutCase (c : Char) (rest : List Char) : CutCase c rest (signsAt c rest) := by
  have gapOf : gapLength (c :: rest) ≠ 0 → isGap c := fun nonzero => by
    cases gap : isGap c with
    | true => rfl
    | false => exact absurd (gapLength_eq_zero gap rest) nonzero
  unfold signsAt
  simp only
  split
  · rename_i gap
    exact .blank (gapOf (by simpa using gap))
  rename_i notGap
  split
  · rename_i range
    exact .range range
  rename_i notRange
  split
  · rename_i arrow
    exact .arrow arrow
  rename_i notArrow
  split
  · rename_i starts
    exact .ident (Bool.eq_false_iff.mpr notRange) (Bool.eq_false_iff.mpr notArrow) starts
  rename_i notIdent
  split
  · rename_i length isNumber
    exact .number length isNumber
  rename_i notNumber
  split
  · rename_i isMark
    exact .marked (by simpa using isMark)
  rename_i notMark
  split
  · rename_i isOpener
    exact .opening .curly (by rw [beq_iff_eq.mp isOpener, Opener.bracket?])
  rename_i notCurly
  split
  · rename_i isOpener
    exact .opening .square (by rw [beq_iff_eq.mp isOpener, Opener.bracket?])
  rename_i notSquare
  split
  · rename_i isOpener
    exact .opening .round (by rw [beq_iff_eq.mp isOpener, Opener.bracket?])
  rename_i notRound
  split
  · rename_i isCloser
    exact .closing (by simpa [or_assoc] using isCloser)
  rename_i notCloser
  split
  · rename_i isQuote
    exact .string (by simpa using isQuote)
  · rename_i notQuote
    refine .short (Bool.eq_false_iff.mpr notIdent) notNumber ?_
    have noGap : isGap c = false := by
      refine Bool.eq_false_iff.mpr fun gap => notGap ?_
      simp [gapLength, gap]
    simp_all [isSpecial]

/-- A sign that is no blank, comment, string or range of code points, and no stray bracket. -/
def Sign.isOrdinary : Sign → Bool
  | .lexeme (.blank _) | .lexeme (.comment _) | .lexeme (.string _ _) | .lexeme (.codeRange _ _)
  | .lexeme (.flaw (.strayCloser _)) => false
  | _ => true

theorem Sign.notStray_of_isOrdinary {sign : Sign} (ordinary : sign.isOrdinary) :
    sign.isStray = false := by
  unfold isStray
  split
  · cases ordinary
  · rfl

theorem isOrdinary_identSigns (text : List Char) :
    ∀ sign ∈ (identSigns text).1, sign.isOrdinary := by
  have ofAddress : ∀ rest, ∀ lexeme ∈ (addressLexemes rest).1,
      (Sign.lexeme lexeme).isOrdinary := fun rest => by
    simp only [addressLexemes]
    split
    · simp [Sign.isOrdinary]
    · split
      all_goals try simp [Sign.isOrdinary]
      split
      · simp
      · split <;> simp
  simp only [identSigns]
  split
  · split
    · simpa using ofAddress _
    · simp [Sign.isOrdinary]
  · simp [oneLexeme, Sign.isOrdinary]

theorem isOrdinary_numberSign (text : List Char) (length : Nat) :
    ∀ sign ∈ (numberSign text length).1, sign.isOrdinary := by
  simp only [numberSign]
  split
  · simp [oneLexeme, Sign.isOrdinary]
  · split <;> simp [oneLexeme, Sign.isOrdinary]

theorem isOrdinary_markedName (mark : Char) (rest : List Char) :
    ∀ sign ∈ (markedName mark rest).1, sign.isOrdinary := by
  simp only [markedName]
  split <;> split <;> simp [literalOf, oneLexeme, Sign.isOrdinary]

/-- Only a slash begins a sign of the last kind that is not ordinary, which is a comment. -/
theorem isOrdinary_shortSign (c : Char) (rest : List Char) :
    ∀ sign ∈ (shortSign c rest).1,
      sign.isOrdinary ∨ c = '/' ∧ ∃ text, sign = .lexeme (.comment text) := by
  simp only [shortSign]
  split
  · rename_i comment dropped
    have isSlash : c = '/' := (List.cons.inj (show c :: rest = '/' :: '*' :: comment from
      dropStart?_eq_some_iff.mp dropped)).1
    simp [oneLexeme, isSlash]
  · split
    · simp [literalOf, oneLexeme, Sign.isOrdinary]
    · split
      · simp [literalOf, oneLexeme, Sign.isOrdinary]
      · split <;> simp [literalOf, oneLexeme, Sign.isOrdinary]

theorem notStray_signsAt (c : Char) (rest : List Char) :
    ∀ sign ∈ (signsAt c rest).1, sign.isStray = false := by
  have kind := cutCase c rest
  generalize signsAt c rest = signs at kind
  have ofOrdinary : (∀ sign ∈ signs.1, sign.isOrdinary) → ∀ sign ∈ signs.1, sign.isStray = false :=
    fun ordinary sign member => Sign.notStray_of_isOrdinary (ordinary sign member)
  cases kind with
  | ident => exact ofOrdinary (isOrdinary_identSigns _)
  | number => exact ofOrdinary (isOrdinary_numberSign _ _)
  | marked => exact ofOrdinary (isOrdinary_markedName _ _)
  | string =>
      simp only [stringSigns]
      split <;> simp [oneLexeme, Sign.isStray]
  | short =>
      intro sign member
      rcases isOrdinary_shortSign c rest sign member with ordinary | ⟨-, text, rfl⟩
      · exact Sign.notStray_of_isOrdinary ordinary
      · rfl
  | _ => simp [literalOf, oneLexeme, Sign.isStray]

theorem notStray_signsOf (text : List Char) : ∀ sign ∈ signsOf text, sign.isStray = false := by
  fun_induction signsOf text with
  | case1 => exact List.forall_mem_nil _
  | case2 c rest inductionHypothesis =>
      rw [List.forall_mem_append]
      exact ⟨notStray_signsAt c rest, inductionHypothesis⟩

theorem signsAt_blank {c : Char} (gap : isGap c) (rest : List Char) :
    signsAt c rest = oneLexeme (.blank ((c :: rest).take (gapLength (c :: rest))))
      (gapLength (c :: rest)) := by
  have nonzero : (gapLength (c :: rest) != 0) = true := by simp [gapLength, gap]
  unfold signsAt
  simp only [nonzero, if_true]

theorem not_isGap_of_startsIdent {c : Char} {rest : List Char} (starts : startsIdent (c :: rest)) :
    isGap c = false := by
  refine Bool.eq_false_iff.mpr fun gap => ?_
  simp only [isGap, Bool.or_eq_true, beq_iff_eq] at gap
  rcases gap with (rfl | rfl) | rfl <;> cases starts

theorem startsIdent_of_opensRange {c : Char} {rest : List Char} (range : opensRange c rest) :
    startsIdent (c :: rest) := by
  simp only [opensRange, Bool.and_eq_true, Bool.or_eq_true, beq_iff_eq] at range
  rcases range.1.1 with rfl | rfl <;> rfl

theorem startsIdent_of_opensArrow {c : Char} {rest : List Char} (arrow : opensArrow c rest) :
    startsIdent (c :: rest) := by
  obtain ⟨more, dropped⟩ := Option.isSome_iff_exists.mp arrow
  rw [dropStart?_eq_some_iff.mp dropped]
  rfl

theorem signsAt_ident {c : Char} {rest : List Char} (notRange : opensRange c rest = false)
    (notArrow : opensArrow c rest = false) (starts : startsIdent (c :: rest)) :
    signsAt c rest = identSigns (c :: rest) := by
  have noGap := gapLength_eq_zero (not_isGap_of_startsIdent starts) rest
  unfold opensRange isRangeChar at notRange
  unfold opensArrow at notArrow
  unfold signsAt
  simp only [noGap, notRange, notArrow, starts]
  rfl

theorem signsAt_marked {c : Char} (isMark : c = '@' ∨ c = '#') (rest : List Char) :
    signsAt c rest = markedName c rest := by
  rcases isMark with rfl | rfl <;> rfl

theorem signsAt_bracket {c : Char} {opener : Opener} (isBracket : opener.bracket? = some c)
    (rest : List Char) : signsAt c rest = ([.opening opener], 1) := by
  cases opener with
  | function => cases isBracket
  | _ =>
      obtain rfl := Option.some.inj isBracket
      rfl

theorem signsAt_closing {c : Char} (isCloser : c = '\x7d' ∨ c = ']' ∨ c = ')') (rest : List Char) :
    signsAt c rest = ([.closing c], 1) := by
  rcases isCloser with rfl | rfl | rfl <;> rfl

theorem signsAt_quote (rest : List Char) : signsAt '"' rest = stringSigns '"' rest :=
  rfl

/-- The kinds of cuts that begin with neither a blank nor a name. -/
theorem signsAt_of_not_startsIdent {c : Char} {rest : List Char} (notGap : isGap c = false)
    (notIdent : startsIdent (c :: rest) = false) :
    signsAt c rest =
      match numberLength? (c :: rest) with
      | some length => numberSign (c :: rest) length
      | none =>
          if c == '@' || c == '#' then markedName c rest
          else if c == '\x7b' then ([.opening .curly], 1)
          else if c == '[' then ([.opening .square], 1)
          else if c == '(' then ([.opening .round], 1)
          else if c == '\x7d' || c == ']' || c == ')' then ([.closing c], 1)
          else if c == '"' || c == '\'' then stringSigns c rest
          else shortSign c rest := by
  have noGap := gapLength_eq_zero notGap rest
  have notRange : opensRange c rest = false := Bool.eq_false_iff.mpr fun range => by
    rw [startsIdent_of_opensRange range] at notIdent
    cases notIdent
  have notArrow : opensArrow c rest = false := Bool.eq_false_iff.mpr fun arrow => by
    rw [startsIdent_of_opensArrow arrow] at notIdent
    cases notIdent
  unfold opensRange isRangeChar at notRange
  unfold opensArrow at notArrow
  unfold signsAt
  simp only [noGap, notRange, notArrow, notIdent]
  rfl

/-- A number begins with a digit, a point or a sign, and a sign is followed by one of the
others. -/
theorem exists_cons_of_numberLength? {text : List Char} {length : Nat}
    (isNumber : numberLength? text = some length) :
    ∃ c rest, text = c :: rest ∧ (c.isDigit ∨ c = '.' ∨ c = '+' ∨ c = '-') ∧
      (c = '-' → ∃ d more, rest = d :: more ∧ (d.isDigit ∨ d = '.')) := by
  obtain ⟨parts, rest, rfl, -⟩ := exists_numberParts isNumber
  have unsigned : ∃ d more, parts.whole ++ (parts.fraction ++ (parts.exponent ++ rest)) = d :: more ∧
      (d.isDigit ∨ d = '.') := by
    cases isWhole : parts.whole with
    | cons d whole => exact ⟨d, _, rfl, .inl (parts.areDigits d (by simp [isWhole]))⟩
    | nil =>
        have present := parts.nonempty.resolve_left fun nonempty => nonempty isWhole
        obtain ⟨digits, isFraction, -⟩ := parts.isFraction.resolve_left present
        exact ⟨'.', _, by rw [isFraction]; rfl, .inr rfl⟩
  obtain ⟨d, more, isText, isFirst⟩ := unsigned
  have signed : parts.text ++ rest = parts.sign ++ d :: more := by
    rw [NumberParts.text, ← isText]
    simp
  rw [signed]
  rcases parts.isSign with none | plus | minus
  · refine ⟨d, more, by rw [none]; rfl, isFirst.imp_right .inl, ?_⟩
    rintro rfl
    rcases isFirst with digit | point
    · cases digit
    · cases point
  · exact ⟨'+', d :: more, by rw [plus]; rfl, .inr (.inr (.inl rfl)), by simp⟩
  · exact ⟨'-', d :: more, by rw [minus]; rfl, .inr (.inr (.inr rfl)), fun _ =>
      ⟨d, more, rfl, isFirst⟩⟩

theorem not_isIdentMark_of_isDigit {c : Char} (digit : c.isDigit) :
    isIdentMark c = false ∧ isGap c = false ∧ c ≠ '-' := by
  have ascii := toNat_of_isHex (isHex_of_isDigit digit)
  exact forall_ascii (fun c => c.isDigit → isIdentMark c = false ∧ isGap c = false ∧ c ≠ '-')
    (by decide) ascii digit

theorem startsIdent_of_numberLength? {text : List Char} {length : Nat}
    (isNumber : numberLength? text = some length) : startsIdent text = false := by
  obtain ⟨c, rest, rfl, isFirst, afterHyphen⟩ := exists_cons_of_numberLength? isNumber
  refine startsIdent_of_identBars ?_
  simp only [identBars, List.forall_mem_cons, Bar.meets_nil, Bar.meets_cons, List.head?_cons,
    Option.any_some]
  refine ⟨?_, ?_, by simp⟩
  · rcases isFirst with digit | rfl | rfl | rfl
    · rw [(not_isIdentMark_of_isDigit digit).1]
      simp
    all_goals decide
  · rintro ⟨_, same, isMark⟩
    obtain ⟨rfl, rfl⟩ := List.cons.inj same
    obtain ⟨d, more, rfl, isFirst⟩ := afterHyphen rfl
    rw [List.head?_cons, Option.any_some] at isMark
    rcases isFirst with digit | rfl
    · obtain ⟨notMark, -, notHyphen⟩ := not_isIdentMark_of_isDigit digit
      simp [notMark, notHyphen] at isMark
    · cases isMark

theorem signsAt_number {c : Char} {rest : List Char} {length : Nat}
    (isNumber : numberLength? (c :: rest) = some length) :
    signsAt c rest = numberSign (c :: rest) length := by
  have notGap : isGap c = false := by
    obtain ⟨_, _, same, isFirst, -⟩ := exists_cons_of_numberLength? isNumber
    obtain ⟨rfl, rfl⟩ := List.cons.inj same
    rcases isFirst with digit | rfl | rfl | rfl
    · exact (not_isIdentMark_of_isDigit digit).2.1
    all_goals rfl
  rw [signsAt_of_not_startsIdent notGap (startsIdent_of_numberLength? isNumber), isNumber]

theorem signsAt_short {c : Char} {rest : List Char} (notIdent : startsIdent (c :: rest) = false)
    (notNumber : numberLength? (c :: rest) = none) (notSpecial : isSpecial c = false) :
    signsAt c rest = shortSign c rest := by
  simp only [isSpecial, Bool.or_eq_false_iff] at notSpecial
  rw [signsAt_of_not_startsIdent (by simp [notSpecial]) notIdent, notNumber]
  simp [notSpecial]

end ContainerPreview.Css
