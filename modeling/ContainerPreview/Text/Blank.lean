/-!
# Blank characters

A character is blank when it separates words: the ASCII blanks and the
information separators, the two blanks of Latin-1, and the spaces and line
separators of Unicode.  Zero-width characters are not blank.

Trimming removes the blanks at both ends of a text, and squeezing replaces
every run of blanks by one space.
-/

namespace ContainerPreview.Text

/-- The blank characters. -/
def isBlank (c : Char) : Bool :=
  let n := c.toNat
  (9 ≤ n && n ≤ 13) || (28 ≤ n && n ≤ 32) || n == 0x85 || n == 0xA0 || n == 0x1680 ||
    (0x2000 ≤ n && n ≤ 0x200A) || n == 0x2028 || n == 0x2029 || n == 0x202F || n == 0x205F ||
    n == 0x3000

/-- The text after its leading blanks. -/
def trimStart (text : List Char) : List Char :=
  text.dropWhile isBlank

/-- The text before its trailing blanks. -/
def trimEnd (text : List Char) : List Char :=
  (trimStart text.reverse).reverse

/-- The text between its leading and its trailing blanks. -/
def trim (text : List Char) : List Char :=
  trimEnd (trimStart text)

@[simp]
theorem trimStart_nil : trimStart [] = [] :=
  rfl

@[simp]
theorem trim_nil : trim [] = [] :=
  rfl

/-- Leading blanks and what follows them make up the text. -/
theorem takeWhile_append_trimStart (text : List Char) :
    text.takeWhile isBlank ++ trimStart text = text :=
  List.takeWhile_append_dropWhile

theorem length_trimStart_le (text : List Char) : (trimStart text).length ≤ text.length :=
  (List.dropWhile_sublist isBlank).length_le

theorem length_trim_le (text : List Char) : (trim text).length ≤ text.length := by
  have inner := length_trimStart_le (trimStart text).reverse
  have outer := length_trimStart_le text
  simp only [trim, trimEnd, List.length_reverse] at inner ⊢
  omega

/-- Replaces every maximal run of blanks by one space.  The flag tells whether
the run that the text continues has already been written. -/
def squeezeFrom : Bool → List Char → List Char
  | _, [] => []
  | within, c :: rest =>
      if isBlank c then
        if within then squeezeFrom true rest else ' ' :: squeezeFrom true rest
      else c :: squeezeFrom false rest

/-- The text with every maximal run of blanks replaced by one space. -/
def squeeze (text : List Char) : List Char :=
  squeezeFrom false text

end ContainerPreview.Text
