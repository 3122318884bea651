/-!
# Letter case

Two notions of case are used.  Matching without regard to case compares the
folded forms of two characters; lower-casing changes a text.  They differ on
the dotless i and the long s, which match an ASCII letter but are lower case
already, and on the dotted capital i, which lower-cases to two characters.

Both cover ASCII, Latin-1 and the four letters beyond it that fold into ASCII.
-/

namespace ContainerPreview.Text

/-- A capital letter of Latin-1 beyond ASCII. -/
def isLatinCapital (c : Char) : Bool :=
  let n := c.toNat
  0xC0 ≤ n && n ≤ 0xDE && n != 0xD7

/-- The representative of the characters that match `c` without regard to
case. -/
def foldCase (c : Char) : Char :=
  if c == 'İ' || c == 'ı' then 'i'
  else if c == 'ſ' then 's'
  else if c == '\u212a' then 'k'
  else if isLatinCapital c then Char.ofNat (c.toNat + 32)
  else c.toLower

/-- Two characters match without regard to case. -/
def sameLetter (a b : Char) : Bool :=
  foldCase a == foldCase b

/-- An ASCII letter without regard to case. -/
def isFoldedLetter (c : Char) : Bool :=
  (foldCase c).isLower

/-- The lower-case form of one character. -/
def lowerChar (c : Char) : List Char :=
  if c == 'İ' then ['i', '\u0307']
  else if c == '\u212a' then ['k']
  else if isLatinCapital c then [Char.ofNat (c.toNat + 32)]
  else [c.toLower]

/-- The lower-case form of a text. -/
def lower (text : List Char) : List Char :=
  text.flatMap lowerChar

/-- Lower case for ASCII letters only. -/
def lowerAscii (text : List Char) : List Char :=
  text.map Char.toLower

@[simp]
theorem lower_nil : lower [] = [] :=
  rfl

@[simp]
theorem lower_append (left right : List Char) :
    lower (left ++ right) = lower left ++ lower right := by
  simp [lower]

end ContainerPreview.Text
