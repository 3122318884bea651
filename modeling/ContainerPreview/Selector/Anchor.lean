import ContainerPreview.Text.Blank
import ContainerPreview.Text.Letter
import ContainerPreview.Text.Search

/-!
# Selectors anchored on the body

A selector is anchored if its first compound is on the element `body`, by
itself or below `html`: `body`, `html body`, `html.dark > body`.  Such a
selector names the container element, so a guard takes the place of the anchor.
The anchor is recognised in any case of letters and does not end inside a name.
-/

namespace ContainerPreview.Selector

open Text

/-- An anchored selector: the anchor as written, and what follows it. -/
structure Anchored where
  anchor : List Char
  rest : List Char
deriving DecidableEq, Repr

/-- A character that begins a condition on an element rather than an element
name. -/
def startsCondition (c : Char) : Bool :=
  c == '.' || c == '#' || c == '[' || c == ':'

/-- A character that ends a compound selector. -/
def endsCompound (c : Char) : Bool :=
  isBlank c || c == '>' || c == '+' || c == '~'

/-- What follows the conditions on an element. -/
def dropConditions (text : List Char) : List Char :=
  if text.head?.any startsCondition then text.dropWhile (!endsCompound ·) else text

/-- What follows a child or descendant combinator. -/
def dropCombinator? (text : List Char) : Option (List Char) :=
  match trimStart text with
  | '>' :: rest => some (trimStart rest)
  | rest => if text.head?.any isBlank then some rest else none

/-- What follows the element `html`, the conditions on it and the combinator
after it. -/
def dropHtml? (text : List Char) : Option (List Char) :=
  (dropStartFolded? "html".toList text).bind fun rest => dropCombinator? (dropConditions rest)

/-- What follows the element `body`. -/
def dropBody? (text : List Char) : Option (List Char) :=
  (dropStartFolded? "body".toList text).filter fun rest => !(rest.head?.any isNameChar)

/-- What follows the anchor of a selector. -/
def dropAnchor? (text : List Char) : Option (List Char) :=
  ((dropHtml? text).bind dropBody?).or (dropBody? text)

/-- The selector divided after its anchor. -/
def anchored? (text : List Char) : Option Anchored :=
  (dropAnchor? text).map fun rest =>
    { anchor := text.take (text.length - rest.length), rest }

end ContainerPreview.Selector
