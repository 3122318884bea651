import ContainerPreview.Text.Blank
import ContainerPreview.Text.Split
import ContainerPreview.Value.Call
import ContainerPreview.Value.Literal
import ContainerPreview.Value.Quantity
import ContainerPreview.Value.UnitMap

/-!
# Converting the units of a value

Conversion swaps the unit of every quantity with a configured unit and leaves
all other text as it is.  Literals are never touched.  The bodies of `calc` and
`clamp` are converted on their own: a `clamp` argument by argument, with the
arguments trimmed and joined by a comma and a space.

Typographic properties have a unit map of their own.  Their conversion also
turns the sum of a viewport quantity and a root-relative size, written in that
order, around: `2vw + 1rem` becomes `1rem + 2cqw`.
-/

namespace ContainerPreview

open Text

namespace Value

/-- How the values of one kind of property are converted: by which map, and
whether fluid sums are turned around. -/
structure Scheme where
  units : UnitMap
  turnsSums : Bool
deriving DecidableEq, Repr

namespace Scheme

/-- The configured units, longest first. -/
def names (scheme : Scheme) : List (List Char) :=
  scheme.units.longestFirst

/-- The unit that stands for a unit as it is written. -/
def targetOf (scheme : Scheme) (unit : List Char) : List Char :=
  match scheme.units.target? (String.ofList (lower unit)) with
  | some target => target.toList
  | none => unit

/-- The converted text of a piece. -/
def convertPiece (scheme : Scheme) : Piece → List Char
  | .plain c => [c]
  | .quantity number unit => number ++ scheme.targetOf unit

/-- A text with the unit of every quantity swapped. -/
def swapUnits (scheme : Scheme) (text : List Char) : List Char :=
  (pieces scheme.names text).flatMap scheme.convertPiece

/-- The number of the root-relative size that ends a sum: what stands between
the plus sign, with the blanks around it, and the unit `rem` at the end. -/
def rootSize? (text : List Char) : Option (List Char) :=
  match trimStart text with
  | '+' :: size =>
      let size := trimStart size
      let number := size.take (size.length - 3)
      if dropStartFolded? ['r', 'e', 'm'] (size.drop (size.length - 3)) == some [] &&
          (numberLengths size).contains number.length
        then some number else none
  | _ => none

/-- The sum that a trimmed text consists of, turned around. -/
def turnedSum? (scheme : Scheme) (text : List Char) : Option (List Char) :=
  (readings scheme.names text).findSome? fun reading =>
    (rootSize? reading.rest).map fun size =>
      size ++ ['r', 'e', 'm', ' ', '+', ' '] ++ reading.number ++ scheme.targetOf reading.unit

/-- A text that is a fluid sum between blanks, turned around between the same
blanks. -/
def turnSum? (scheme : Scheme) (text : List Char) : Option (List Char) :=
  if scheme.turnsSums then
    (scheme.turnedSum? (trim text)).map fun sum =>
      text.takeWhile isBlank ++ sum ++ (text.reverse.takeWhile isBlank).reverse
  else none

/-- Converts a text without literals call by call.  The flag tells whether the
text may be a fluid sum as a whole, which it may not after a call. -/
def convertCalls (scheme : Scheme) (whole : Bool) (text : List Char) : List Char :=
  match _found : firstCall? text with
  | none =>
      match if whole then scheme.turnSum? text else none with
      | some turned => turned
      | none => scheme.swapUnits text
  | some call =>
      let body :=
        match call.function with
        | .calc =>
            match scheme.turnSum? call.body with
            | some turned => turned
            | none => convertCalls scheme true call.body
        | .clamp =>
            [',', ' '].intercalate <|
              (splitTopLevel ',' call.body).attach.map fun ⟨argument, _member⟩ =>
                match scheme.turnSum? (trim argument) with
                | some turned => turned
                | none => convertCalls scheme true (trim argument)
      scheme.swapUnits call.before ++ call.name ++ '(' :: body ++ ')' ::
        convertCalls scheme false call.after
termination_by text.length
decreasing_by
  · exact (length_of_firstCall? _found).1
  · have bodyShorter := (length_of_firstCall? _found).1
    have argumentLe := length_le_of_mem_splitTopLevel _member
    have trimmedLe := length_trim_le argument
    omega
  · exact (length_of_firstCall? _found).2

/-- A value converted. -/
def convert (scheme : Scheme) (value : List Char) : List Char :=
  mapFree (scheme.convertCalls true) value

end Scheme

/-- The properties whose values follow the typography map. -/
def typographyProperties : List String :=
  ["font-size", "line-height", "letter-spacing", "word-spacing", "text-indent", "margin-top",
    "margin-bottom", "padding-top", "padding-bottom"]

/-- The property is typographic, in any case of letters. -/
def isTypographic (property : String) : Bool :=
  typographyProperties.contains (String.ofList (lower property.toList))

end Value

open Value

/-- The two unit maps of a conversion, with their units in lower case. -/
structure Converter where
  units : UnitMap
  typographyUnits : UnitMap
deriving DecidableEq, Repr

namespace Converter

/-- The converter with the given maps.  Without a typography map, or with an
empty one, typography follows the other map. -/
def ofMaps (units : UnitMap) (typographyUnits : Option UnitMap) : Converter :=
  let typography :=
    match typographyUnits with
    | some (entry :: entries) => entry :: entries
    | _ => units
  { units := units.lowerUnits, typographyUnits := UnitMap.lowerUnits typography }

/-- How the values of ordinary properties are converted. -/
def general (converter : Converter) : Scheme :=
  { units := converter.units, turnsSums := false }

/-- How the values of typographic properties are converted. -/
def typography (converter : Converter) : Scheme :=
  { units := converter.typographyUnits, turnsSums := true }

/-- How the values of a property are converted. -/
def schemeFor (converter : Converter) (property : String) : Scheme :=
  if isTypographic property then converter.typography else converter.general

/-- A value converted as that of an ordinary property. -/
def convert (converter : Converter) (value : String) : String :=
  String.ofList (converter.general.convert value.toList)

/-- A value converted as that of a typographic property. -/
def convertTypography (converter : Converter) (value : String) : String :=
  String.ofList (converter.typography.convert value.toList)

/-- The value of a property converted. -/
def convertFor (converter : Converter) (property value : String) : String :=
  String.ofList ((converter.schemeFor property).convert value.toList)

/-- The configured units that a value uses outside its literals, in lower case
and in order. -/
def unitsIn (converter : Converter) (value : String) : List String :=
  ((pieces converter.general.names (blankLiterals value.toList)).filterMap Piece.unit?).map
    fun unit => String.ofList (lower unit)

/-- The value uses a configured unit outside its literals. -/
def hasUnits (converter : Converter) (value : String) : Bool :=
  !(converter.unitsIn value).isEmpty

end Converter

end ContainerPreview
