import ContainerPreview.Media.Comparison
import ContainerPreview.Report.Event
import ContainerPreview.Text.Paren
import ContainerPreview.Text.Search
import ContainerPreview.Text.Split

/-!
# Media queries

One query of a media list is read for the media types it names and translated
into the condition of a container query: the media type in front is dropped,
comparisons are stated by named bounds, and the condition is put in parentheses
if it does not start with one.  A query that names only a type leaves nothing.
-/

namespace ContainerPreview.Media

open Text

/-- The words of a text: its maximal runs of ASCII letters, without regard to
case.  The word in progress is given in reverse. -/
def wordsFrom (word : List Char) : List Char → List (List Char)
  | [] => if word.isEmpty then [] else [word.reverse]
  | c :: text =>
      if isFoldedLetter c then wordsFrom (c :: word) text
      else if word.isEmpty then wordsFrom [] text
      else word.reverse :: wordsFrom [] text

/-- The words of a text that stand outside its innermost groups, in lower
case. -/
def outerWords (text : List Char) : List (List Char) :=
  (wordsFrom [] (mapGroups (fun _ => [' ']) text)).map lower

/-- The query names a media type. -/
def names (query : List Char) (type : String) : Bool :=
  (outerWords query).contains type.toList

/-- No word goes on at the start of `text`. -/
def wordEnds (text : List Char) : Bool :=
  !(text.head?.any isWordChar)

/-- What follows a word and the end of it, without regard to case. -/
def dropWord? (word : String) (text : List Char) : Option (List Char) :=
  (dropStartFolded? word.toList text).filter wordEnds

/-- What follows a word and at least one blank. -/
def dropWordAndBlanks? (word : String) (text : List Char) : Option (List Char) :=
  match dropStartFolded? word.toList text with
  | some (c :: rest) => if isBlank c then some (trimStart rest) else none
  | _ => none

/-- What follows the `not` in front of a query. -/
def dropNot? (query : List Char) : Option (List Char) :=
  dropWordAndBlanks? "not" (trimStart query)

/-- What follows one of the media types. -/
def dropType? (text : List Char) : Option (List Char) :=
  (dropWord? "all" text).or ((dropWord? "screen" text).or (dropWord? "print" text))

/-- The query without the media type in front of it: without `only`, the type
and the `and` after it. -/
def dropTypeClause (query : List Char) : List Char :=
  let start := trimStart query
  let typed := ((dropWordAndBlanks? "only" start).bind dropType?).or (dropType? start)
  match typed with
  | none => query
  | some rest =>
      let rest := trimStart rest
      match dropWord? "and" rest with
      | some condition => trimStart condition
      | none => rest

/-- Puts a condition in parentheses unless it starts with one. -/
def parenthesise (condition : List Char) : List Char :=
  match condition with
  | '(' :: _ => condition
  | _ => '(' :: condition ++ [')']

/-- The condition of a container query that stands for a media query.  It is
empty if the query names only a media type. -/
def conditionOf (query : List Char) : List Char :=
  let stripped := trim (dropTypeClause query)
  if stripped.isEmpty then [] else parenthesise (trim (squeeze (boundComparisons stripped)))

/-- The bounds with names of their own, which do not go together with relation
signs in one query. -/
def namedBounds : List String :=
  ["min-width", "max-width", "min-height", "max-height"]

/-- The query has both a named bound and a relation sign. -/
def mixesBounds (query : String) : Bool :=
  namedBounds.any (contains query) && (contains query ">=" || contains query "<=")

/-- A media query translated, with a warning if it mixes bounds. -/
def translateQuery (query : String) : Traced String := do
  .emitIf (mixesBounds query) (.warning "Unsupported media query" query)
  return String.ofList (conditionOf query.toList)

/-- The query applies to screens: it is not for print alone.  What a negated
query applies to is decided when it is translated. -/
def appliesToScreen (query : String) : Bool :=
  let query := query.toList
  (dropNot? query).isSome || !names query "print" || names query "all" || names query "screen"

/-- A condition negated, in parentheses of its own unless one pair already
encloses it. -/
def negate (condition : List Char) : List Char :=
  if condition.head? == some '(' && closingParen? condition 0 == some (condition.length - 1) then
    "(not ".toList ++ condition ++ [')']
  else "(not (".toList ++ condition ++ "))".toList

/-- The queries of a media list, trimmed, without empty ones. -/
def splitQueries (params : String) : List String :=
  (((splitTopLevel ',' params.toList).map trim).filter (!·.isEmpty)).map String.ofList

/-- The list has queries, and all of them are for print alone. -/
def isPrintOnly (params : String) : Bool :=
  let queries := splitQueries params
  !queries.isEmpty && !queries.any appliesToScreen

end ContainerPreview.Media
