/-!
# Tokens of a style sheet

The text of a style sheet is read as a sequence of tokens, some of which are
groups: bracketed blocks and functions hold the tokens inside them.  Every
token knows the line and the column of its first character.
-/

namespace ContainerPreview.Css

/-- A place in a text.  Lines and columns are counted from one. -/
structure Position where
  line : Nat
  column : Nat
deriving DecidableEq, Repr, Inhabited

namespace Position

/-- The first character of a text. -/
def start : Position := { line := 1, column := 1 }

/-- The place after a character. -/
def next (position : Position) (c : Char) : Position :=
  if c == '\n' then { line := position.line + 1, column := 1 }
  else { position with column := position.column + 1 }

/-- The place after a text. -/
def after (position : Position) (text : List Char) : Position :=
  text.foldl next position

end Position

/-- Text that cannot be read as a token of its kind.  A string or an address
that the text ends in is read all the same and followed by such a flaw. -/
inductive Flaw where
  | brokenString
  | brokenAddress
  | openString
  | openAddress
  | strayCloser (closer : Char)
deriving DecidableEq, Repr

/-- A token that holds no other token.  Names and values stand without escapes,
numbers as they are written. -/
inductive Lexeme where
  | blank (text : List Char)
  | comment (text : List Char)
  | literal (text : List Char)
  | ident (name : List Char)
  | atKeyword (name : List Char)
  /-- A hash.  The flag tells whether its name could stand as an identifier. -/
  | hash (name : List Char) (isIdent : Bool)
  | string (value : List Char) (closed : Bool)
  | address (value : List Char) (closed : Bool)
  | number (text : List Char)
  | percentage (text : List Char)
  | dimension (number unit : List Char)
  | codeRange (first last : Nat)
  | flaw (flaw : Flaw)
deriving DecidableEq, Repr

/-- What opens a group. -/
inductive Opener where
  | curly
  | square
  | round
  | function (name : List Char)
deriving DecidableEq, Repr

namespace Opener

/-- The character that closes the group. -/
def closer : Opener → Char
  | .curly => '\x7d'
  | .square => ']'
  | .round | .function _ => ')'

end Opener

/-- A token of a style sheet. -/
inductive Token where
  | single (position : Position) (lexeme : Lexeme)
  | group (position : Position) (opener : Opener) (content : List Token)
deriving Repr

namespace Token

/-- The place of the first character of a token. -/
def position : Token → Position
  | .single position _ => position
  | .group position _ _ => position

/-- The token is the given literal. -/
def isLiteral (text : String) : Token → Bool
  | .single _ (.literal written) => written == text.toList
  | _ => false

/-- The token is blank text or a comment. -/
def isInsignificant : Token → Bool
  | .single _ (.blank _) | .single _ (.comment _) => true
  | _ => false

/-- The token is a block in curly brackets. -/
def isCurly : Token → Bool
  | .group _ .curly _ => true
  | _ => false

/-- The name of the kind of a token, as messages give it. -/
def kind : Token → String
  | .single _ lexeme =>
      match lexeme with
      | .blank _ => "whitespace"
      | .comment _ => "comment"
      | .literal _ => "literal"
      | .ident _ => "ident"
      | .atKeyword _ => "at-keyword"
      | .hash _ _ => "hash"
      | .string _ _ => "string"
      | .address _ _ => "url"
      | .number _ => "number"
      | .percentage _ => "percentage"
      | .dimension _ _ => "dimension"
      | .codeRange _ _ => "unicode-range"
      | .flaw _ => "error"
  | .group _ opener _ =>
      match opener with
      | .curly => "\x7b\x7d block"
      | .square => "[] block"
      | .round => "() block"
      | .function _ => "function"

end Token

end ContainerPreview.Css
