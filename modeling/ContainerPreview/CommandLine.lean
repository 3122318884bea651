import ContainerPreview.Transform.Chain

/-!
# The command line

The program has two commands and a version option.  `convert` reads a style
sheet, runs the toggle over it and writes the result; `units` shows the unit
maps.  What the program prints, which file it writes and its exit status follow
from the arguments and from the contents of the files they name.

A command line that cannot be understood, or whose values are refused, ends
with status 2, and a style sheet that cannot be read with status 1.  Nothing is
written in either case.

A run also ends with status 1 if the output cannot be opened, if the nesting of
the style sheet is too deep for the stack, and if the result holds a lone
surrogate, which no file can hold.  The output is opened before the result is
put together, so that a file that has been there is empty after a result that
cannot be written.
-/

namespace ContainerPreview.CommandLine

/-- The version of the program. -/
def version : String :=
  "0.1.0"

/-- The name of the program. -/
def programName : String :=
  "viewport-toggle"

/-- What a run of the program comes to. -/
structure Outcome where
  status : Nat := 0
  output : String := ""
  errors : String := ""
  /-- The file that is written, with its content. -/
  written : Option (String × String) := none
deriving DecidableEq, Repr

/-- Why a command line is refused. -/
inductive UsageError where
  | noSuchCommand (name : String)
  | noCommand
  | noSuchOption (name : String)
  | needsValue (name : String)
  | takesNoValue (name : String)
  | noInput
  | tooManyInputs (names : List String)
  | noSuchFile (name : String)
  | badUnit (pair : String)
  | refused (error : OptionError)
deriving DecidableEq, Repr

namespace UsageError

/-- The message for a refused command line. -/
def message : UsageError → String
  | .noSuchCommand name => "No such command " ++ Text.quoted name ++ "."
  | .noCommand => "Missing command."
  | .noSuchOption name => "No such option: " ++ name
  | .needsValue name => "Option " ++ Text.quoted name ++ " requires an argument."
  | .takesNoValue name => "Option " ++ Text.quoted name ++ " does not take a value."
  | .noInput => "Missing argument 'INPUT'."
  | .tooManyInputs [name] => "Got unexpected extra argument (" ++ name ++ ")"
  | .tooManyInputs names =>
      "Got unexpected extra arguments (" ++ String.intercalate " " names ++ ")"
  | .noSuchFile name => "Invalid value for 'INPUT': '" ++ name ++ "': No such file or directory"
  | .badUnit pair =>
      "Invalid value for '--unit': expected FROM=TO, got " ++ Text.quoted pair
  | .refused error => "Invalid value: " ++ error.message

/-- The outcome of a refused command line. -/
def outcome (error : UsageError) : Outcome :=
  { status := 2, errors := "Error: " ++ error.message ++ "\n" }

end UsageError

/-- The options of `convert` that take a value. -/
inductive ValueOption where
  | output
  | containerElement
  | modifierAttribute
  | unit
  | debugFilter
deriving DecidableEq, Repr

/-- The option that takes a value and has the given long name. -/
def ValueOption.ofName? : String → Option ValueOption
  | "--output" => some .output
  | "--container-el" => some .containerElement
  | "--modifier-attr" => some .modifierAttribute
  | "--unit" => some .unit
  | "--debug-filter" => some .debugFilter
  | _ => none

/-- The setting of the debug option with the given name. -/
def debugFlag? : String → Option Bool
  | "--debug" => some true
  | "--no-debug" => some false
  | _ => none

/-- The arguments of `convert` sorted out: the options with their values in
order, the last debug option, and the arguments that are no options. -/
structure Arguments where
  values : List (ValueOption × String) := []
  debug : Bool := false
  inputs : List String := []
deriving DecidableEq, Repr

namespace Arguments

/-- The arguments with one more option in front.  Of two debug options the later
one counts. -/
def withValue (arguments : Arguments) (option : ValueOption) (value : String) : Arguments :=
  { arguments with values := (option, value) :: arguments.values }

/-- The last value of an option. -/
def last? (arguments : Arguments) (option : ValueOption) : Option String :=
  (arguments.values.reverse.find? fun entry => entry.1 == option).map Prod.snd

/-- The values of the unit option in order. -/
def unitPairs (arguments : Arguments) : List String :=
  (arguments.values.filter fun entry => entry.1 == .unit).map Prod.snd

end Arguments

/-- The text before and after the first equals sign of an argument, if there is
one. -/
def splitAtEquals (text : List Char) : List Char × Option (List Char) :=
  match text.dropWhile (· != '=') with
  | [] => (text, none)
  | _ :: rest => (text.takeWhile (· != '='), some rest)

/-- How an argument is to be read. -/
inductive ArgumentKind where
  | operand
  | endOfOptions
  | flag (debug : Bool)
  | value (option : ValueOption) (name : String) (attached : Option String)
  | bad (error : UsageError)
deriving DecidableEq, Repr

/-- How a long option is to be read. -/
def classifyLong (argument : List Char) : ArgumentKind :=
  let (name, attached) := splitAtEquals argument
  let name := String.ofList name
  match ValueOption.ofName? name, debugFlag? name, attached with
  | some option, _, _ => .value option name (attached.map String.ofList)
  | none, some debug, none => .flag debug
  | none, some _, some _ => .bad (.takesNoValue name)
  | none, none, _ => .bad (.noSuchOption name)

/-- How an argument is to be read. -/
def classify (argument : String) : ArgumentKind :=
  match argument.toList with
  | ['-', '-'] => .endOfOptions
  | '-' :: '-' :: rest => classifyLong ('-' :: '-' :: rest)
  | ['-', 'o'] => .value .output "-o" none
  | '-' :: 'o' :: attached => .value .output "-o" (some (String.ofList attached))
  | '-' :: c :: _ => .bad (.noSuchOption (String.ofList ['-', c]))
  | _ => .operand

/-- Sorts out the arguments of `convert`.  The flag `debug` is the setting of
the debug option so far. -/
def sortArguments (debug : Bool) : List String → Except UsageError Arguments
  | [] => .ok { debug }
  | argument :: rest =>
      match classify argument with
      | .operand => do
          let sorted ← sortArguments debug rest
          return { sorted with inputs := argument :: sorted.inputs }
      | .endOfOptions => .ok { debug, inputs := rest }
      | .flag debug => sortArguments debug rest
      | .bad error => .error error
      | .value option _ (some value) => do
          return (← sortArguments debug rest).withValue option value
      | .value option name none =>
          match rest with
          | [] => .error (.needsValue name)
          | value :: rest => do
              return (← sortArguments debug rest).withValue option value

/-- The unit map with one pair put into it.  Both sides are trimmed and must not
be blank. -/
def putUnitPair (units : UnitMap) (pair : String) : Except UsageError UnitMap :=
  match splitAtEquals pair.toList with
  | (_, none) => .error (.badUnit pair)
  | (unit, some target) =>
      let unit := Text.trim unit
      let target := Text.trim target
      if unit.isEmpty || target.isEmpty then .error (.badUnit pair)
      else .ok (OrderedMap.put (String.ofList unit) (String.ofList target) units)

/-- The unit map that pairs make of the standard one.  Without a pair the
defaults are not overridden at all. -/
def unitsOfPairs (pairs : List String) : Except UsageError (Option UnitMap) :=
  if pairs.isEmpty then .ok none
  else do return some (← pairs.foldlM putUnitPair .standard)

/-- The settings that the arguments stand for. -/
def settings (arguments : Arguments) (units : Option UnitMap) : OrderedMap Setting :=
  [("container_el", .text ((arguments.last? .containerElement).getD "body")),
    ("modifier_attr", .text ((arguments.last? .modifierAttribute).getD defaultModifier)),
    ("debug", .flag arguments.debug),
    ("debug_filter", ((arguments.last? .debugFilter).map .text).getD .unset)] ++
    (units.map fun units => ("units", .units units)).toList

/-- The place that a name stands for in a directory: leading dots are for the directory itself. -/
def placeIn : List Char → List Char
  | '.' :: '/' :: name => placeIn name
  | name => name

/-- Why a file cannot be opened for writing in a directory that holds nothing but the given
files. -/
def faultAmong (file? : String → Option String) (place : String) : Option String :=
  match place.toList.dropWhile (· != '/') with
  | [] =>
      if place == "" then some "No such file or directory"
      else if place == "." || place == ".." then some "Is a directory"
      else none
  | _ :: rest =>
      if (file? (String.ofList (place.toList.takeWhile (· != '/')))).isSome then
        some "Not a directory"
      else if rest.isEmpty then some "Is a directory"
      else some "No such file or directory"

/-- What the program finds: the standard input, the places that names stand for, the files by their
places, why a file cannot be opened for writing, and for which texts the stack suffices. -/
structure Inputs where
  standard : String
  file? : String → Option String
  place : String → String := fun name => String.ofList (placeIn name.toList)
  fault? : String → Option String := faultAmong file?
  /-- The stack suffices to read the text and to transform the style sheet. -/
  bearsTransforming : String → Bool := fun _ => true
  /-- The stack suffices to put the result together. -/
  bearsWriting : String → Bool := fun _ => true

/-- The text of an input; a hyphen stands for the standard input. -/
def Inputs.text? (inputs : Inputs) (name : String) : Option String :=
  if name == "-" then some inputs.standard else inputs.file? (inputs.place name)

/-- The file that the nodes of an input come from. -/
def sourceOf (name : String) : Option String :=
  if name == "-" || name == "<stdin>" then none else some name

/-- A text with every kind of line end written in one way. -/
def uniformLines : List Char → List Char
  | [] => []
  | '\r' :: '\n' :: text => '\n' :: uniformLines text
  | c :: text => (if c == '\r' then '\n' else c) :: uniformLines text

/-- What is printed of a report. -/
def printLines (reporter : Reporter) : String :=
  String.join (reporter.lines.map fun line => line.message ++ "\n")

/-- The outcome of an unreadable style sheet. -/
def unreadable (error : ReadError) : Outcome :=
  { status := 1,
    errors := "Parse error (" ++ error.place ++ "): " ++ error.problem.message ++ "\n" }

/-- A lone surrogate that is named in a text stands in the css that comes from it. -/
def holdsSurrogate (text css : String) : Bool :=
  Css.namesSurrogate text.toList && css.toList.any Css.isStandIn

/-- The css that comes from a text can be put together and written. -/
def Inputs.bearsResult (inputs : Inputs) (text css : String) : Bool :=
  inputs.bearsWriting text && !holdsSurrogate text css

/-- The outcome of a run that is broken off.  The trace that it prints is not described. -/
def brokenOff (errors : String) : Outcome :=
  { status := 1, errors }

/-- The outcome of a run whose output cannot be opened. -/
def unopened (target reason errors : String) : Outcome :=
  { status := 1,
    errors := errors ++ "Error: Could not open file " ++ Text.quoted target ++ ": " ++ reason ++
      "\n" }

/-- Writes a result to the standard output or to the named file, if it can be written. -/
def deliver (inputs : Inputs) (target css errors : String) (canWrite : Bool) : Outcome :=
  if target == "-" then
    if canWrite then { output := css, errors } else brokenOff errors
  else
    match inputs.fault? (inputs.place target) with
    | some reason => unopened target reason errors
    | none =>
        if canWrite then { errors, written := some (inputs.place target, css) }
        else { brokenOff errors with written := some (inputs.place target, "") }

/-- Transforms a text that has been read, and writes the result to the standard
output or to the named file. -/
def convertText (inputs : Inputs) (options : Options) (source : Option String)
    (target text : String) : Outcome :=
  if !inputs.bearsTransforming text then brokenOff ""
  else
    match readSheet (String.ofList (uniformLines text.toList)) source with
    | .error error => unreadable error
    | .ok tree =>
        let transform := Transform.toggle options
        let result := transform.apply tree
        let css := result.value.css ++ "\n"
        let errors := printLines (transform.reporter.observeAll result.events)
        deliver inputs target css errors (inputs.bearsResult text css)

/-- Runs `convert`.  Of several faults the first in this order is reported: an
option that cannot be read, a unit pair, the input, a further input, a refused
value, the style sheet itself. -/
def convert (inputs : Inputs) (arguments : List String) : Except UsageError Outcome := do
  let sorted ← sortArguments false arguments
  let units ← unitsOfPairs sorted.unitPairs
  match sorted.inputs with
  | [] => .error .noInput
  | name :: others =>
      match inputs.text? name with
      | none => .error (.noSuchFile name)
      | some text =>
          if !others.isEmpty then .error (.tooManyInputs others)
          else
            let options ← (Options.resolve (settings sorted units) []).mapError .refused
            return convertText inputs options (sourceOf name) ((sorted.last? .output).getD "-") text

/-- The lines that show a unit map. -/
def showUnits (units : UnitMap) : String :=
  String.join (units.map fun entry => "  " ++ entry.1 ++ " -> " ++ entry.2 ++ "\n")

/-- Runs `units`. -/
def units (arguments : List String) : Except UsageError Outcome :=
  if !arguments.isEmpty then .error (.tooManyInputs arguments)
  else
    let options : Options := {}
    .ok { output := "Units:\n" ++ showUnits options.units ++ "\nTypography units:\n" ++
            showUnits options.typographyUnits }

/-- Runs the program. -/
def run (inputs : Inputs) (arguments : List String) : Outcome :=
  let result : Except UsageError Outcome :=
    match arguments with
    | [] => .error .noCommand
    | "--version" :: _ => .ok { output := programName ++ ", version " ++ version ++ "\n" }
    | "convert" :: arguments => convert inputs arguments
    | "units" :: arguments => units arguments
    | name :: _ =>
        if name.startsWith "-" then .error (.noSuchOption name) else .error (.noSuchCommand name)
  match result with
  | .ok outcome => outcome
  | .error error => error.outcome

/-- The input that the arguments name, if it can be told. -/
def inputName? (arguments : List String) : Option String :=
  match arguments with
  | "convert" :: arguments =>
      match sortArguments false arguments with
      | .ok sorted => sorted.inputs.head?
      | .error _ => none
  | _ => none

end ContainerPreview.CommandLine
