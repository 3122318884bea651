import ContainerPreview.Report.Event
import ContainerPreview.Text.Search

/-!
# Reports of a transform

A reporter observes the events of a transform.  It always counts them; it shows
them only if it is told to, and remarks about nodes only if the file of the
node matches its filter.  The files of the remarks it shows are part of its
statistics.
-/

namespace ContainerPreview

/-- Puts a text into a list in ascending order that holds every text once. -/
def insertText (text : String) : List String → List String
  | [] => [text]
  | first :: rest =>
      if text == first then first :: rest
      else if text < first then text :: first :: rest
      else first :: insertText text rest

/-- What a reporter has counted.  The units and the files are in ascending
order. -/
structure Stats where
  rules : Nat := 0
  media : Nat := 0
  fixed : Nat := 0
  units : List String := []
  files : List String := []
deriving DecidableEq, Repr

/-- How serious a line of a log is. -/
inductive Level where
  | info
  | warning
deriving DecidableEq, Repr

/-- A line of a log. -/
structure LogLine where
  level : Level
  message : String
deriving DecidableEq, Repr

/-- An observer of a transform. -/
structure Reporter where
  /-- Whether events are shown at all. -/
  debug : Bool := false
  /-- What the file of a node has to contain for remarks about it. -/
  filter : Option String := none
  stats : Stats := {}
  lines : List LogLine := []
deriving DecidableEq, Repr

namespace Reporter

/-- The mark in front of every line. -/
def tag : String :=
  "[viewport-toggle]"

/-- The file that a remark is about, in words. -/
def fileName (source : Option String) : String :=
  match source with
  | none => "unknown source"
  | some file => if file.isEmpty then "unknown source" else file

/-- The filter lets remarks about a file pass.  An empty filter is none. -/
def admits (reporter : Reporter) (file : String) : Bool :=
  match reporter.filter with
  | none => true
  | some filter => filter.isEmpty || Text.contains file filter

/-- The reporter after it has shown one more line. -/
def write (reporter : Reporter) (level : Level) (message : String) : Reporter :=
  if reporter.debug then { reporter with lines := reporter.lines ++ [{ level, message }] }
  else reporter

/-- The reporter after a remark. -/
def note (reporter : Reporter) (message : String) (source : Option String) : Reporter :=
  let file := fileName source
  if reporter.debug && reporter.admits file then
    let stats := { reporter.stats with files := insertText file reporter.stats.files }
    { reporter with stats }.write .info (tag ++ " " ++ message ++ " (" ++ file ++ ")")
  else reporter

/-- The reporter after a warning. -/
def warn (reporter : Reporter) (message detail : String) : Reporter :=
  reporter.write .warning <|
    if detail.isEmpty then tag ++ " " ++ message else tag ++ " " ++ message ++ ": " ++ detail

/-- The summary of what has been counted. -/
def summary (stats : Stats) : String :=
  String.intercalate "\n" <|
    [tag ++ " Processing Summary:",
      "----------------------------------------",
      "Rules processed: " ++ toString stats.rules,
      "Media queries processed: " ++ toString stats.media,
      "Fixed positions converted: " ++ toString stats.fixed,
      "Viewport unit conversions:"] ++
    stats.units.map ("  " ++ ·) ++ ["Processed files:"] ++ stats.files.map ("  " ++ ·)

/-- The statistics after an event. -/
def count (stats : Stats) : Event → Stats
  | .ruleProcessed => { stats with rules := stats.rules + 1 }
  | .mediaProcessed => { stats with media := stats.media + 1 }
  | .fixedConverted => { stats with fixed := stats.fixed + 1 }
  | .unitConverted unit target =>
      { stats with units := insertText (unit ++ " -> " ++ target) stats.units }
  | _ => stats

/-- The reporter after an event. -/
def observe (reporter : Reporter) (event : Event) : Reporter :=
  match event with
  | .note message source => reporter.note message source
  | .warning message detail => reporter.warn message detail
  | .passEnded => reporter.write .info (summary reporter.stats)
  | event => { reporter with stats := count reporter.stats event }

/-- The reporter after events in order. -/
def observeAll (reporter : Reporter) (events : List Event) : Reporter :=
  events.foldl observe reporter

end Reporter

end ContainerPreview
