import ContainerPreview.Text.Blank

/-!
# Quoted display of a text

Messages show a name between quotes, in such a way that every character of it
can be seen.  Single quotes are used unless the text holds one and holds no
double quote.  A backslash and the quote in use are escaped, and so are the
characters that have no picture of their own.
-/

namespace ContainerPreview.Text

/-- A character without a picture of its own: a control or format character, a
blank other than the space, or a code point for private use. -/
def isInvisible (c : Char) : Bool :=
  let n := c.toNat
  n < 32 || (127 ≤ n && n < 0xA0) || (n != 32 && isBlank c) || n == 0xAD ||
    (0x200B ≤ n && n ≤ 0x200F) || (0x202A ≤ n && n ≤ 0x202E) || (0x2060 ≤ n && n ≤ 0x206F) ||
    n == 0xFEFF || (0xFFF0 ≤ n && n ≤ 0xFFFB) || n == 0xFFFE || n == 0xFFFF ||
    (0xE000 ≤ n && n ≤ 0xF8FF) || 0xE0000 ≤ n

/-- A code point in lower-case hexadecimal digits, filled up with zeros. -/
def hexDigits (width n : Nat) : List Char :=
  let digits := Nat.toDigits 16 n
  List.replicate (width - digits.length) '0' ++ digits

/-- The escape of a character by its code point: the shortest of the three
forms that holds it. -/
def escapeCode (c : Char) : List Char :=
  let n := c.toNat
  if n < 0x100 then '\\' :: 'x' :: hexDigits 2 n
  else if n < 0x10000 then '\\' :: 'u' :: hexDigits 4 n
  else '\\' :: 'U' :: hexDigits 8 n

/-- One character of a text displayed between `quote`s. -/
def displayChar (quote c : Char) : List Char :=
  if c == '\\' || c == quote then ['\\', c]
  else if c == '\n' then ['\\', 'n']
  else if c == '\r' then ['\\', 'r']
  else if c == '\t' then ['\\', 't']
  else if isInvisible c then escapeCode c
  else [c]

/-- The quote that a text is displayed with. -/
def displayQuote (text : List Char) : Char :=
  if text.contains '\'' && !text.contains '"' then '"' else '\''

/-- A text displayed between quotes. -/
def quoted (text : String) : String :=
  let chars := text.toList
  let quote := displayQuote chars
  String.ofList (quote :: chars.flatMap (displayChar quote) ++ [quote])

end ContainerPreview.Text
