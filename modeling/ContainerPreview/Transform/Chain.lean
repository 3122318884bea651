import ContainerPreview.Transform.MediaCopy
import ContainerPreview.Transform.Toggle.Pass
import ContainerPreview.Transform.UnitCopy
import ContainerPreview.Sheet.Printer
import ContainerPreview.Sheet.Reader

/-!
# Chains of transforms

Transforms are applied to a sheet one after the other.  Without a list of its
own a chain consists of the toggle with its default options.
-/

namespace ContainerPreview

/-- A transform of a sheet. -/
inductive Transform where
  | toggle (options : Options)
  | mediaCopy (transform : MediaCopy)
  | unitCopy (transform : UnitCopy)

namespace Transform

/-- Applies a transform to a sheet. -/
def apply : Transform → Node → Traced Node
  | .toggle options, tree => runToggle options tree
  | .mediaCopy transform, tree => transform.apply tree
  | .unitCopy transform, tree => pure (transform.apply tree)

/-- The reporter that observes a transform. -/
def reporter : Transform → Reporter
  | .toggle options => { debug := options.debug, filter := options.debugFilter }
  | .mediaCopy transform => { debug := transform.debug }
  | .unitCopy _ => {}

/-- The transforms of a chain without a list of its own. -/
def defaultChain : List Transform :=
  [.toggle {}]

/-- Applies transforms one after the other. -/
def applyAll : List Transform → Node → Traced Node
  | [], tree => pure tree
  | transform :: transforms, tree => do
      let tree ← transform.apply tree
      applyAll transforms tree

end Transform

/-- Why a text could not be transformed. -/
inductive TransformError where
  | unreadable (error : ReadError)
  | refused (error : OptionError)
deriving DecidableEq, Repr

/-- Reads a style sheet, runs the toggle over it and writes the result.  The
sheet is read before the settings are looked at. -/
def transformText (text : String) (source : Option String) (settings : OrderedMap Setting) :
    Except TransformError String := do
  let tree ← (readSheet text source).mapError .unreadable
  let options ← (Options.resolve [] settings).mapError .refused
  return (runToggle options tree).value.css

end ContainerPreview
