import ContainerPreview.Selector.Anchor
import ContainerPreview.Text.Split

/-!
# Guarding selectors

A guard is a selector of the container element in one of its two modes.
Guarding a selector list scopes every selector under a guard; updating it
changes only the selectors anchored on the body, which name the container
element themselves.  With several guards every selector fans out into one
alternative for each.

What follows an anchor may start with a condition.  After a blank, that
condition may also be one on the container element, so both readings are kept:
`body .foo` gives the guard with `.foo` below it and with `.foo` on it.
-/

namespace ContainerPreview.Selector

open Text

/-- The selectors of a list, trimmed, without empty ones. -/
def selectorsOf (list : List Char) : List (List Char) :=
  ((splitTopLevel ',' list).map trim).filter (!·.isEmpty)

/-- The list without the later occurrences of an entry. -/
def keepFirst : List (List Char) → List (List Char)
  | [] => []
  | selector :: selectors => selector :: (keepFirst selectors).filter (· != selector)

/-- The selectors written as a list, each of them once. -/
def writeList (selectors : List (List Char)) : List Char :=
  [',', ' '].intercalate (keepFirst selectors)

/-- What follows an anchor, placed behind a guard instead. -/
def replaceAnchor (rest guard : List Char) : List (List Char) :=
  if rest.isEmpty then [guard]
  else if rest.head?.any startsCondition then [guard ++ rest]
  else
    let rest := trim rest
    let below := guard ++ ' ' :: rest
    if rest.head?.any startsCondition then [below, guard ++ rest] else [below]

/-- The alternatives of one selector under one guard. -/
def guardSelector (selector guard : List Char) : List (List Char) :=
  match anchored? selector with
  | some found => replaceAnchor found.rest guard
  | none => [guard ++ ' ' :: selector]

/-- The alternatives of one selector if only an anchor is replaced. -/
def updateSelector (guards : List (List Char)) (selector : List Char) : List (List Char) :=
  match anchored? selector with
  | some found => guards.flatMap (replaceAnchor found.rest)
  | none => [selector]

/-- The alternatives of a guarded selector list. -/
def guardedSelectors (guards : List (List Char)) (list : List Char) : List (List Char) :=
  (selectorsOf list).flatMap fun selector => guards.flatMap (guardSelector selector)

/-- The alternatives of an updated selector list. -/
def updatedSelectors (guards : List (List Char)) (list : List Char) : List (List Char) :=
  (selectorsOf list).flatMap (updateSelector guards)

/-- A selector list with every selector scoped under the guards. -/
def addGuard (list : String) (guards : List String) : String :=
  String.ofList (writeList (guardedSelectors (guards.map String.toList) list.toList))

/-- A selector list with the anchored selectors placed behind the guards. -/
def updateAnchored (list : String) (guards : List String) : String :=
  String.ofList (writeList (updatedSelectors (guards.map String.toList) list.toList))

/-- One of the guards stands somewhere in the selector list. -/
def hasGuard (list : String) (guards : List String) : Bool :=
  guards.any (contains list)

end ContainerPreview.Selector
