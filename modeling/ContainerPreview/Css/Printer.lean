import ContainerPreview.Css.Token

/-!
# Writing tokens

Tokens are written so that reading them gives the same tokens again: names and
values are escaped, an empty comment is put between two tokens that would
otherwise run together, and a backslash is followed by a line end.  Flaws are
written as something that is read as the same flaw, or not at all where the
text ended.
-/

namespace ContainerPreview.Css

/-- A line end as an escape, for the characters that must not stand in a name
or a string as they are. -/
def escapeLineEnd? (c : Char) : Option (List Char) :=
  if c == '\n' then some "\\A ".toList
  else if c == '\r' then some "\\D ".toList
  else if c == '\x0c' then some "\\C ".toList
  else none

/-- A letter, an underscore or a character beyond ASCII. -/
def isPlainStart (c : Char) : Bool :=
  c.isAlpha || c == '_' || 0x7F < c.toNat

/-- One character of a name after its start. -/
def writeNameChar (c : Char) : List Char :=
  if isPlainStart c || c.isDigit || c == '-' then [c]
  else (escapeLineEnd? c).getD ['\\', c]

/-- A name after its start. -/
def writeName (name : List Char) : List Char :=
  name.flatMap writeNameChar

/-- The first character of an identifier.  A digit is escaped by its code. -/
def writeFirst (c : Char) : List Char :=
  if isPlainStart c then [c]
  else if c.isDigit then ['\\', '3', c, ' ']
  else (escapeLineEnd? c).getD ['\\', c]

/-- An identifier from its first character after an optional hyphen. -/
def writeStart : List Char → List Char
  | [] => []
  | c :: rest => writeFirst c ++ writeName rest

/-- An identifier. -/
def writeIdent : List Char → List Char
  | ['-'] => ['\\', '-']
  | '-' :: '-' :: rest => '-' :: '-' :: writeName rest
  | '-' :: rest => '-' :: writeStart rest
  | name => writeStart name

/-- One character of a string. -/
def writeStringChar (c : Char) : List Char :=
  if c == '"' || c == '\\' then ['\\', c] else (escapeLineEnd? c).getD [c]

/-- One character of an address. -/
def writeAddressChar (c : Char) : List Char :=
  if c == '\'' || c == '"' || c == '\\' || c == ' ' || c == '(' || c == ')' then ['\\', c]
  else if c == '\t' then "\\9 ".toList
  else (escapeLineEnd? c).getD [c]

/-- The unit of a dimension.  A unit that could be read as the exponent of the
number is escaped. -/
def writeUnit (unit : List Char) : List Char :=
  match unit with
  | [] => []
  | c :: rest =>
      if (c == 'e' || c == 'E') && (rest.isEmpty || rest.head? == some '-') then
        "\\65 ".toList ++ writeName rest
      else writeIdent unit

/-- A code point in upper-case hexadecimal digits. -/
def writeHex (n : Nat) : List Char :=
  (Nat.toDigits 16 n).map Char.toUpper

/-- A range of code points. -/
def writeCodeRange (first last : Nat) : List Char :=
  'U' :: '+' :: writeHex first ++ (if last == first then [] else '-' :: writeHex last)

/-- A flaw. -/
def writeFlaw : Flaw → List Char
  | .brokenString => "\"[bad string]\n".toList
  | .brokenAddress => "url([bad url])".toList
  | .openString | .openAddress => []
  | .strayCloser closer => [closer]

/-- A token that holds no other token. -/
def writeLexeme : Lexeme → List Char
  | .blank text => text
  | .comment text => '/' :: '*' :: text ++ ['*', '/']
  | .literal text => text
  | .ident name => writeIdent name
  | .atKeyword name => '@' :: writeIdent name
  | .hash name isIdent => '#' :: if isIdent then writeIdent name else writeName name
  | .string value closed => '"' :: value.flatMap writeStringChar ++ if closed then ['"'] else []
  | .address value closed =>
      "url(".toList ++ value.flatMap writeAddressChar ++ if closed then [')'] else []
  | .number text => text
  | .percentage text => text ++ ['%']
  | .dimension number unit => number ++ writeUnit unit
  | .codeRange first last => writeCodeRange first last
  | .flaw flaw => writeFlaw flaw

/-- What a token is for the rule on tokens that run together: its kind, or the
text of a literal. -/
def joint : Token → String
  | .single _ (.literal text) => String.ofList text
  | token => token.kind

/-- Kinds of token that begin like a name or a number. -/
def nameOrNumber : List String :=
  ["ident", "function", "url", "number", "percentage", "dimension", "unicode-range"]

/-- Two neighbours would be read as something else without a comment between
them. -/
def runsTogether (left right : String) : Bool :=
  (["ident", "at-keyword", "hash", "dimension", "#", "-", "number"].contains left &&
    nameOrNumber.contains right) ||
  (["ident", "at-keyword", "hash", "dimension"].contains left &&
    (right == "-" || right == "-->")) ||
  (["#", "-", "number", "@"].contains left && ["ident", "function", "url"].contains right) ||
  (["unicode-range", ".", "+"].contains left &&
    ["number", "percentage", "dimension"].contains right) ||
  (left == "@" && ["ident", "function", "url", "unicode-range", "-"].contains right) ||
  (left == "unicode-range" && ["ident", "function", "?"].contains right) ||
  (["$", "*", "^", "~", "|"].contains left && right == "=") ||
  (left == "ident" && right == "() block") ||
  (left == "|" && right == "|") ||
  (left == "/" && right == "*")

/-- The token is blank text that starts with a line end. -/
def startsLine : Token → Bool
  | .single _ (.blank text) => text.head? == some '\n'
  | _ => false

/-- What is written between two neighbours. -/
def separatorBetween (left : Option String) (right : Token) : List Char :=
  match left with
  | none => []
  | some left =>
      if runsTogether left (joint right) then "/**/".toList
      else if left == "\\" && !startsLine right then ['\n']
      else []

mutual
/-- The arguments of a function end in a string that the text ends in, so that
the function is not closed either. -/
def Token.endsOpen : Token → Bool
  | .single _ _ => false
  | .group _ (.function _) content => lastEndsOpen content
  | .group _ _ _ => false
/-- The last of some arguments is the flaw of such a string, or a function whose
arguments end in one. -/
def lastEndsOpen : List Token → Bool
  | [] => false
  | [.single _ (.flaw .openString)] => true
  | [token] => token.endsOpen
  | _ :: second :: rest => lastEndsOpen (second :: rest)
end

mutual
/-- The text of a token. -/
def Token.write : Token → List Char
  | .single _ lexeme => writeLexeme lexeme
  | .group _ .curly content => '\x7b' :: writeAfter none content ++ ['\x7d']
  | .group _ .square content => '[' :: writeAfter none content ++ [']']
  | .group _ .round content => '(' :: writeAfter none content ++ [')']
  | .group _ (.function name) content =>
      writeIdent name ++ '(' :: writeAfter none content ++
        if lastEndsOpen content then [] else [')']
/-- The text of tokens after a neighbour. -/
def writeAfter (left : Option String) : List Token → List Char
  | [] => []
  | token :: tokens =>
      separatorBetween left token ++ token.write ++ writeAfter (some (joint token)) tokens
end

/-- The text of tokens. -/
def writeTokens (tokens : List Token) : List Char :=
  writeAfter none tokens

end ContainerPreview.Css
