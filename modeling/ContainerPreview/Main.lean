import ContainerPreview.CommandLine

/-!
# The program

Reads what the arguments name, runs the command line, and prints and writes
what comes out of it.
-/

open ContainerPreview CommandLine

/-- All that is left on a stream. -/
def readToEnd (stream : IO.FS.Stream) : IO String := do
  let mut text := ""
  repeat
    let line ← stream.getLine
    if line.isEmpty then break
    text := text ++ line
  return text

/-- The content of a file, if it can be read. -/
def readIfThere (name : String) : IO (Option String) := do
  try
    return some (← IO.FS.readFile name)
  catch _ =>
    return none

/-- Why a file cannot be opened. -/
def reasonOf : IO.Error → String
  | .noFileOrDirectory _ _ reason | .permissionDenied _ _ reason
  | .inappropriateType _ _ reason | .invalidArgument _ _ reason => reason
  | error => toString error

/-- Writes a file, and tells why it cannot be written. -/
def writeOrFault (name text : String) : IO (Option String) := do
  try
    IO.FS.writeFile name text
    return none
  catch error =>
    return some (reasonOf error)

/-- Runs the program with the given arguments. -/
def main (arguments : List String) : IO UInt32 := do
  let input := inputName? arguments
  let standard ← if input == some "-" then readToEnd (← IO.getStdin) else pure ""
  let content ←
    match input with
    | some name => if name == "-" then pure none else readIfThere name
    | none => pure none
  let inputs : Inputs :=
    { standard, file? := fun _ => content, place := id, fault? := fun _ => none }
  let mut outcome := run inputs arguments
  if let some (name, text) := outcome.written then
    if let some reason ← writeOrFault name text then
      outcome := run { inputs with fault? := fun _ => some reason } arguments
  IO.print outcome.output
  IO.eprint outcome.errors
  return outcome.status.toUInt32
