import ContainerPreview.Css.Token
import ContainerPreview.Text.Search

/-!
# Reading tokens

The text is first cut into signs from left to right: a lexeme, the opening of a
group, or a closing bracket.  Every cut takes at least one character.  The
signs are then nested: a closing bracket ends the innermost open group if it is
the one that group waits for and is a flaw otherwise, and the end of the text
ends all groups.

Before that, line ends are made uniform and the character with code zero is
replaced.

An escape can name a lone surrogate, which is no character but can stand in a
text that has been read.  Another character stands in for it here.
-/

namespace ContainerPreview.Css

open Text

/-- The character that stands for one that cannot be given. -/
def replacement : Char :=
  '\ufffd'

/-- The text with uniform line ends and without the character of code zero. -/
def preprocess : List Char → List Char
  | [] => []
  | '\r' :: '\n' :: text => '\n' :: preprocess text
  | c :: text =>
      (if c == '\x00' then replacement else if c == '\r' || c == '\x0c' then '\n' else c) ::
        preprocess text

/-- A blank between tokens. -/
def isGap (c : Char) : Bool :=
  c == ' ' || c == '\n' || c == '\t'

/-- A character that a name may start with. -/
def startsName (c : Char) : Bool :=
  c.isAlpha || c == '_' || 0x7F < c.toNat

/-- A character that may stand in a name. -/
def isInName (c : Char) : Bool :=
  startsName c || c.isDigit || c == '-'

/-- A hexadecimal digit. -/
def isHex (c : Char) : Bool :=
  c.isDigit || ('a' ≤ c && c ≤ 'f') || ('A' ≤ c && c ≤ 'F')

/-- The value of a hexadecimal digit. -/
def hexValue (c : Char) : Nat :=
  if c.isDigit then c.toNat - '0'.toNat
  else if 'a' ≤ c then c.toNat - 'a'.toNat + 10
  else c.toNat - 'A'.toNat + 10

/-- The number that hexadecimal digits stand for. -/
def hexNumber (digits : List Char) : Nat :=
  digits.foldl (fun number c => 16 * number + hexValue c) 0

/-- The code of a lone surrogate, which is no character. -/
def isSurrogate (code : Nat) : Bool :=
  0xD800 ≤ code && code < 0xE000

/-- The character stands in for a lone surrogate: it is one of the last 2048, which are for private
use. -/
def isStandIn (c : Char) : Bool :=
  0x10F800 ≤ c.toNat

/-- The character with a code point, if there is one and it is not zero.  Every lone surrogate has
a character of its own to stand in for it. -/
def charOfCode (code : Nat) : Char :=
  if isSurrogate code then Char.ofNat (code - 0xD800 + 0x10F800)
  else if code != 0 && code.isValidChar then Char.ofNat code
  else replacement

/-- A lone surrogate is named by an escape somewhere in a text. -/
def namesSurrogate : List Char → Bool
  | [] => false
  | c :: text =>
      c == '\\' && isSurrogate (hexNumber ((text.take 6).takeWhile isHex)) || namesSurrogate text

/-- An escape begins here: a backslash that is not at the end of a line. -/
def startsEscape : List Char → Bool
  | '\\' :: '\n' :: _ => false
  | '\\' :: _ => true
  | _ => false

/-- An identifier begins here. -/
def startsIdent : List Char → Bool
  | [] => false
  | '-' :: text =>
      (text.head?.any fun c => startsName c || c == '-') || startsEscape text
  | c :: text => startsName c || startsEscape (c :: text)

/-- The character that an escape stands for, given what follows the backslash,
and how many characters of that it takes. -/
def escapeAt (text : List Char) : Char × Nat :=
  let digits := (text.take 6).takeWhile isHex
  if digits.isEmpty then
    match text with
    | [] => (replacement, 0)
    | c :: _ => (c, 1)
  else
    let gap := if (text.drop digits.length).head?.any isGap then 1 else 0
    (charOfCode (hexNumber digits), digits.length + gap)

/-- The name that a text starts with, without its escapes, and how many
characters it takes. -/
def nameAt (text : List Char) : List Char × Nat :=
  match text with
  | [] => ([], 0)
  | c :: rest =>
      if isInName c then
        let (name, length) := nameAt rest
        (c :: name, length + 1)
      else if startsEscape (c :: rest) then
        let (escaped, taken) := escapeAt rest
        let (name, length) := nameAt (rest.drop taken)
        (escaped :: name, taken + length + 1)
      else ([], 0)
termination_by text.length
decreasing_by
  all_goals simp only [List.length_drop, List.length_cons]; omega

/-- How a string ends: with its quote, with the text, or, broken, at the end of
a line. -/
inductive StringEnd where
  | closed
  | openEnd
  | broken
deriving DecidableEq, Repr

/-- The value of a string whose opening quote has been passed, how many
characters it takes, and how it ends. -/
def stringAt (quote : Char) (text : List Char) : List Char × Nat × StringEnd :=
  match text with
  | [] => ([], 0, .openEnd)
  | '\\' :: [] => ([], 1, .openEnd)
  | '\\' :: '\n' :: rest =>
      let (value, length, stop) := stringAt quote rest
      (value, length + 2, stop)
  | '\\' :: rest =>
      let (escaped, taken) := escapeAt rest
      let (value, length, stop) := stringAt quote (rest.drop taken)
      (escaped :: value, taken + length + 1, stop)
  | c :: rest =>
      if c == quote then ([], 1, .closed)
      else if c == '\n' then ([], 0, .broken)
      else
        let (value, length, stop) := stringAt quote rest
        (c :: value, length + 1, stop)
termination_by text.length
decreasing_by
  all_goals simp only [List.length_drop, List.length_cons]; omega

/-- A character that an address without quotes must not hold. -/
def isBarred (c : Char) : Bool :=
  let n := c.toNat
  c == '"' || c == '\'' || c == '(' || n ≤ 8 || n == 0xB || (0xE ≤ n && n ≤ 0x1F) || n == 0x7F

/-- How the characters of an address end: at its parenthesis, at a blank, with
the text, or at a barred character. -/
inductive AddressEnd where
  | closed
  | atGap
  | openEnd
  | barred
deriving DecidableEq, Repr

/-- The value of an address, how many characters it takes with the one that
ends it, and how it ends. -/
def addressAt (text : List Char) : List Char × Nat × AddressEnd :=
  match text with
  | [] => ([], 0, .openEnd)
  | c :: rest =>
      if c == ')' then ([], 1, .closed)
      else if isGap c then ([], 1, .atGap)
      else if startsEscape (c :: rest) then
        let (escaped, taken) := escapeAt rest
        let (value, length, stop) := addressAt (rest.drop taken)
        (escaped :: value, taken + length + 1, stop)
      else if isBarred c then ([], 1, .barred)
      else
        let (value, length, stop) := addressAt rest
        (c :: value, length + 1, stop)
termination_by text.length
decreasing_by
  all_goals simp only [List.length_drop, List.length_cons]; omega

/-- How far a broken address goes: to the next parenthesis that no backslash
stands before. -/
def remnantLength : List Char → Nat
  | [] => 0
  | '\\' :: ')' :: text => remnantLength text + 2
  | c :: text => if c == ')' then 1 else remnantLength text + 1

/-- How many blanks a text starts with. -/
def gapLength (text : List Char) : Nat :=
  (text.takeWhile isGap).length

/-- The lexemes of an address after its opening parenthesis, and how many
characters they take. -/
def addressLexemes (text : List Char) : List Lexeme × Nat :=
  let gap := gapLength text
  let start := text.drop gap
  let broken (length : Nat) : List Lexeme × Nat :=
    ([.flaw .brokenAddress], length + remnantLength (text.drop length))
  if start.isEmpty then ([.address [] false, .flaw .openAddress], gap)
  else
    let (value, length, stop) := addressAt start
    match stop with
    | .closed => ([.address value true], gap + length)
    | .openEnd => ([.address value false, .flaw .openAddress], gap + length)
    | .barred => broken (gap + length)
    | .atGap =>
        let length := gap + length + gapLength (start.drop length)
        match text.drop length with
        | [] => ([.address value false, .flaw .openAddress], length)
        | c :: _ => if c == ')' then ([.address value true], length + 1) else broken length

/-- How many ASCII digits a text starts with. -/
def digitCount (text : List Char) : Nat :=
  (text.takeWhile Char.isDigit).length

/-- The length of the exponent that a text starts with. -/
def exponentLength : List Char → Nat
  | c :: text =>
      if c == 'e' || c == 'E' then
        let sign := if text.head?.any fun c => c == '+' || c == '-' then 1 else 0
        let digits := digitCount (text.drop sign)
        if digits == 0 then 0 else 1 + sign + digits
      else 0
  | [] => 0

/-- The length of the number that a text starts with: an optional sign, digits
with an optional point in front of or among them, and an optional exponent. -/
def numberLength? (text : List Char) : Option Nat :=
  let sign := if text.head?.any fun c => c == '+' || c == '-' then 1 else 0
  let whole := digitCount (text.drop sign)
  let fraction :=
    match text.drop (sign + whole) with
    | '.' :: rest => digitCount rest
    | _ => 0
  let mantissa := if fraction == 0 then whole else whole + 1 + fraction
  if mantissa == 0 then none
  else some (sign + mantissa + exponentLength (text.drop (sign + mantissa)))

/-- The range of code points after `U+`, and how many characters it takes.  Up
to six places hold digits, the last of which may be left open by question
marks; without those, a second number may follow a hyphen. -/
def codeRangeAt (text : List Char) : Nat × Nat × Nat :=
  let digits := (text.take 6).takeWhile isHex
  let marks := ((text.take 6).drop digits.length).takeWhile (· == '?')
  let length := digits.length + marks.length
  if !marks.isEmpty then
    (hexNumber (digits ++ List.replicate marks.length '0'),
      hexNumber (digits ++ List.replicate marks.length 'F'), length)
  else
    match text.drop length with
    | '-' :: rest =>
        let last := (rest.take 6).takeWhile isHex
        if last.isEmpty then (hexNumber digits, hexNumber digits, length)
        else (hexNumber digits, hexNumber last, length + 1 + last.length)
    | _ => (hexNumber digits, hexNumber digits, length)

/-- The text of a comment whose start has been passed, and how many characters
it takes with its end. -/
def commentAt : List Char → List Char × Nat
  | [] => ([], 0)
  | '*' :: '/' :: _ => ([], 2)
  | c :: text =>
      let (comment, length) := commentAt text
      (c :: comment, length + 1)

/-- What the text is cut into before groups are formed. -/
inductive Sign where
  | lexeme (lexeme : Lexeme)
  | opening (opener : Opener)
  | closing (closer : Char)
deriving DecidableEq, Repr

/-- One lexeme that takes as many characters as given. -/
def oneLexeme (lexeme : Lexeme) (length : Nat) : List Sign × Nat :=
  ([.lexeme lexeme], length)

/-- A literal made of the first characters of a text. -/
def literalOf (text : List Char) (length : Nat) : List Sign × Nat :=
  oneLexeme (.literal (text.take length)) length

/-- The signs of a text that starts with an identifier: the identifier itself,
an address, or the opening of a function. -/
def identSigns (text : List Char) : List Sign × Nat :=
  let (name, length) := nameAt text
  match text.drop length with
  | '(' :: rest =>
      let quoted := (rest.drop (gapLength rest)).head?.any fun c => c == '"' || c == '\''
      if lowerAscii name == "url".toList && !quoted then
        let (lexemes, taken) := addressLexemes rest
        (lexemes.map .lexeme, length + 1 + taken)
      else ([.opening (.function name)], length + 1)
  | _ => oneLexeme (.ident name) length

/-- The sign of a text that starts with a number of the given length. -/
def numberSign (text : List Char) (length : Nat) : List Sign × Nat :=
  let number := text.take length
  let rest := text.drop length
  if startsIdent rest then
    let (unit, taken) := nameAt rest
    oneLexeme (.dimension number unit) (length + taken)
  else if rest.head? == some '%' then oneLexeme (.percentage number) (length + 1)
  else oneLexeme (.number number) length

/-- The signs of a text that starts with a quote. -/
def stringSigns (quote : Char) (rest : List Char) : List Sign × Nat :=
  let (value, length, stop) := stringAt quote rest
  match stop with
  | .closed => oneLexeme (.string value true) (length + 1)
  | .openEnd => ([.lexeme (.string value false), .lexeme (.flaw .openString)], length + 1)
  | .broken => oneLexeme (.flaw .brokenString) (length + 1)

/-- A hash or at-sign is followed by a name, or else stands for itself. -/
def markedName (mark : Char) (rest : List Char) : List Sign × Nat :=
  let (name, length) := nameAt rest
  if mark == '@' then
    if startsIdent rest then oneLexeme (.atKeyword name) (length + 1)
    else literalOf (mark :: rest) 1
  else if rest.head?.any isInName || startsEscape rest then
    oneLexeme (.hash name (startsIdent rest)) (length + 1)
  else literalOf (mark :: rest) 1

/-- The sign of a text that starts with none of the longer tokens. -/
def shortSign (c : Char) (rest : List Char) : List Sign × Nat :=
  let text := c :: rest
  match dropStart? "/*".toList text with
  | some comment =>
      let (comment, length) := commentAt comment
      oneLexeme (.comment comment) (length + 2)
  | none =>
      if (dropStart? "<!--".toList text).isSome then literalOf text 4
      else if (dropStart? "||".toList text).isSome then literalOf text 2
      else if ['~', '|', '^', '$', '*'].contains c && rest.head? == some '=' then literalOf text 2
      else literalOf text 1

/-- The signs at the start of a text, and how many characters they take.  The
kinds of token are tried in a fixed order. -/
def signsAt (c : Char) (rest : List Char) : List Sign × Nat :=
  let text := c :: rest
  let gap := gapLength text
  if gap != 0 then oneLexeme (.blank (text.take gap)) gap
  else if (c == 'u' || c == 'U') && rest.head? == some '+' &&
      (rest.tail.head?.any fun c => isHex c || c == '?') then
    let (first, last, length) := codeRangeAt rest.tail
    oneLexeme (.codeRange first last) (length + 2)
  else if (dropStart? "-->".toList text).isSome then literalOf text 3
  else if startsIdent text then identSigns text
  else
    match numberLength? text with
    | some length => numberSign text length
    | none =>
        if c == '@' || c == '#' then markedName c rest
        else if c == '\x7b' then ([.opening .curly], 1)
        else if c == '[' then ([.opening .square], 1)
        else if c == '(' then ([.opening .round], 1)
        else if c == '\x7d' || c == ']' || c == ')' then ([.closing c], 1)
        else if c == '"' || c == '\'' then stringSigns c rest
        else shortSign c rest

/-- The signs of a text with their places.  A cut never takes fewer characters
than one. -/
def signsFrom (position : Position) (text : List Char) : List (Position × Sign) :=
  match text with
  | [] => []
  | c :: rest =>
      let (signs, length) := signsAt c rest
      signs.map (position, ·) ++
        signsFrom (position.after (c :: rest.take (length - 1))) (rest.drop (length - 1))
termination_by text.length
decreasing_by
  simp only [List.length_drop, List.length_cons]
  omega

/-- A group that is still open: where and by what it was opened, and the tokens
before it in reverse. -/
structure OpenGroup where
  position : Position
  opener : Opener
  before : List Token

/-- The tokens of open groups that the end of the text closes.  The tokens of
the innermost one are given in reverse. -/
def closeAll : List OpenGroup → List Token → List Token
  | [], tokens => tokens.reverse
  | group :: groups, tokens =>
      closeAll groups (.group group.position group.opener tokens.reverse :: group.before)

/-- The tokens that signs nest into, given the open groups and, in reverse, the
tokens of the innermost one. -/
def nest : List OpenGroup → List Token → List (Position × Sign) → List Token
  | groups, tokens, [] => closeAll groups tokens
  | groups, tokens, (position, sign) :: signs =>
      match sign with
      | .lexeme lexeme => nest groups (.single position lexeme :: tokens) signs
      | .opening opener => nest ({ position, opener, before := tokens } :: groups) [] signs
      | .closing closer =>
          match groups with
          | group :: outer =>
              if group.opener.closer == closer then
                nest outer (.group group.position group.opener tokens.reverse :: group.before)
                  signs
              else nest groups (.single position (.flaw (.strayCloser closer)) :: tokens) signs
          | [] => nest groups (.single position (.flaw (.strayCloser closer)) :: tokens) signs

/-- The tokens of a style sheet. -/
def tokens (text : List Char) : List Token :=
  nest [] [] (signsFrom Position.start (preprocess text))

end ContainerPreview.Css
