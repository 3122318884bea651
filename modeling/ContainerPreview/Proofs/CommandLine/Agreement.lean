import ContainerPreview.Proofs.CommandLine.Spelling
import ContainerPreview.Proofs.Options.Standard
import Mathlib.Data.List.Forall2
import Mathlib.Logic.Function.Basic

/-!
# What a command line comes to

The arguments of `convert` ask for one input to be transformed with the options that they name, and
for the result to go to the standard output or to a file.  If the input is there, the text, with
its line ends made uniform, is transformed with these options, and the output can be opened, the
result and a newline are all that the program writes.  The input has been read by then, so it can be
the file that is written.  In every other case the program fails and writes nothing but its message.
A file that has been opened for a result that then cannot be written is left out.

The program takes every option as given, with its standard value if it is not, and the unit map only
if there is a pair for it.  The options are the same as those made of what is given.
-/

namespace ContainerPreview.CommandLine

open OrderedMap Options

/-! ## Unit pairs -/

/-- What is asked for: a text from a file to be transformed with options and put to a target. -/
structure Request where
  text : String
  source : Option String
  keywords : OrderedMap Setting
  target : String

/-- What a request comes to, the line ends of its text made uniform. -/
def Request.css (request : Request) : Except TransformError String :=
  transformText (String.ofList (uniformLines request.text.toList)) request.source request.keywords

namespace Outcome

/-- The files after a run. -/
def files (outcome : Outcome) (before : String → Option String) : String → Option String :=
  match outcome.written with
  | none => before
  | some (name, text) => Function.update before name (some text)

end Outcome

/-- The output that a request names can be opened. -/
def Request.Opens (request : Request) (inputs : Inputs) : Prop :=
  request.target = "-" ∨ inputs.fault? (inputs.place request.target) = none

end ContainerPreview.CommandLine
