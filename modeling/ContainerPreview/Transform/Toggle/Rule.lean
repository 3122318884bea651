import ContainerPreview.Options
import ContainerPreview.Transform.Declarations
import ContainerPreview.Selector.Guard

/-!
# Forking rules

A rule that depends on the viewport is forked: the rule itself is scoped to the
viewport, and a container variant of it right after it is scoped to the
preview.  A rule that does not depend on it goes on to apply in both modes; if
it names the container element, it does so under either guard.
-/

namespace ContainerPreview

/-- What a toggle pass works with. -/
structure Toggle where
  converter : Converter
  hook : Option Media.Hook
  viewportGuard : String
  previewGuard : String

namespace Toggle

/-- The toggle with the given options. -/
def ofOptions (options : Options) : Toggle :=
  { converter := .ofMaps options.units options.typographyUnits, hook := options.hook,
    viewportGuard := options.viewportGuard, previewGuard := options.previewGuard }

/-- The selector list holds one of the two guards. -/
def isGuarded (toggle : Toggle) (selector : String) : Bool :=
  Selector.hasGuard selector [toggle.viewportGuard, toggle.previewGuard]

/-- A selector list scoped to the viewport. -/
def scopeToViewport (toggle : Toggle) (selector : String) : String :=
  Selector.addGuard selector [toggle.viewportGuard]

/-- A selector list scoped to the viewport unless it is guarded already. -/
def scopeUnguarded (toggle : Toggle) (selector : String) : String :=
  if toggle.isGuarded selector then selector else toggle.scopeToViewport selector

/-- A selector list scoped to the preview. -/
def scopeToPreview (toggle : Toggle) (selector : String) : String :=
  Selector.addGuard selector [toggle.previewGuard]

/-- A selector list whose selectors on the container element apply under either
guard. -/
def keepInBothModes (toggle : Toggle) (selector : String) : String :=
  Selector.updateAnchored selector [toggle.viewportGuard, toggle.previewGuard]

/-- A selector list whose selectors on the container element apply in the
preview. -/
def placeInPreview (toggle : Toggle) (selector : String) : String :=
  Selector.updateAnchored selector [toggle.previewGuard]

/-- The children of a container variant. -/
def variantChildren (toggle : Toggle) (file : Option String) (children : List Node) :
    Traced (List Node) := do
  let processing ← processChildren toggle.converter true file children
  .emitIf processing.fixed .fixedConverted
  return processing.children

/-- What forking makes of a rule: its selector list from now on, and the
variants to stand after it, which are none or one. -/
structure Fork where
  selector : String
  variants : List Node

/-- Forks a rule in a block from the file `around`. -/
def forkRule (toggle : Toggle) (around source : Option String) (selector : String)
    (children : List Node) : Traced Fork :=
  if needsVariant toggle.converter children then do
    .emit .ruleProcessed
    .emit (.note ("Processing rule: " ++ selector) source)
    let converted ← toggle.variantChildren source (copyInto source children)
    let head := Head.rule (toggle.scopeToPreview selector)
    return { selector := toggle.scopeToViewport selector,
             variants := [.block (source.or around) head true converted] }
  else pure { selector := toggle.keepInBothModes selector, variants := [] }

end Toggle

namespace Head

/-- An at-rule that holds keyframes. -/
def isKeyframes : Head → Bool
  | .atRule name _ _ => "keyframes".toList.isSuffixOf name.toList
  | _ => false

/-- A media block. -/
def isMedia : Head → Bool
  | .atRule name _ _ => name == "media"
  | _ => false

/-- A media block or a container block. -/
def isQuery : Head → Bool
  | .atRule name _ _ => name == "media" || name == "container"
  | _ => false

end Head

/-- Where a node stands: whether a media or container block is around it,
whether it is directly in keyframes, and the file of the block around it. -/
structure Place where
  insideQuery : Bool
  inKeyframes : Bool
  around : Option String
deriving DecidableEq, Repr

namespace Place

/-- The place of a node with nothing around it. -/
def outside : Place :=
  { insideQuery := false, inKeyframes := false, around := none }

/-- The place of the children of a block. -/
def within (place : Place) (source : Option String) (head : Head) : Place :=
  { insideQuery := place.insideQuery || head.isQuery, inKeyframes := head.isKeyframes,
    around := source }

end Place

end ContainerPreview
