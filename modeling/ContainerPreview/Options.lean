import ContainerPreview.Media.Conditions
import ContainerPreview.Text.Quoted
import ContainerPreview.Value.UnitMap

/-!
# Options of the toggle

The options of the toggle transform, their defaults, and how they are resolved
from named settings.  An option has a name in words joined by underscores, and
some have a second name with a capital letter inside.  Later settings win over
earlier ones.
-/

namespace ContainerPreview

/-- What a setting can hold. -/
inductive Setting where
  | unset
  | text (text : String)
  | flag (flag : Bool)
  | units (units : UnitMap)
  | hook (hook : Media.Hook)

/-- The options by name. -/
inductive OptionName where
  | units
  | typographyUnits
  | containerElement
  | modifierAttribute
  | transform
  | debug
  | debugFilter
deriving DecidableEq, Repr

namespace OptionName

/-- The option with one of the main names. -/
def ofMainName? : String → Option OptionName
  | "units" => some .units
  | "typography_units" => some .typographyUnits
  | "container_el" => some .containerElement
  | "modifier_attr" => some .modifierAttribute
  | "transform" => some .transform
  | "debug" => some .debug
  | "debug_filter" => some .debugFilter
  | _ => none

/-- The option with one of the second names. -/
def ofAlias? : String → Option OptionName
  | "containerEl" => some .containerElement
  | "modifierAttr" => some .modifierAttribute
  | "debugFilter" => some .debugFilter
  | "typographyUnits" => some .typographyUnits
  | _ => none

/-- The option with the given name. -/
def ofName? (name : String) : Option OptionName :=
  (ofAlias? name).or (ofMainName? name)

end OptionName

/-- Why settings are refused. -/
inductive OptionError where
  | unknownOption (name : String)
  | emptyContainer
  | emptyModifier
  | notAHook
  | presetAndSettings
  | emptySelector
deriving DecidableEq, Repr

namespace OptionError

/-- The message for a refusal. -/
def message : OptionError → String
  | .unknownOption name => "Unknown option: " ++ Text.quoted name
  | .emptyContainer => "container_el must be a non-empty selector"
  | .emptyModifier => "modifier_attr must be a non-empty attribute name"
  | .notAHook => "transform must be callable"
  | .presetAndSettings => "Pass either a ToggleOptions instance or keyword options"
  | .emptySelector => "selector must be a non-empty selector"

end OptionError

/-- The attribute that switches the preview on by default. -/
def defaultModifier : String :=
  "data-breakpoint-preview-mode"

/-- The options of the toggle transform. -/
structure Options where
  units : UnitMap := .standard
  typographyUnits : UnitMap := .standardTypography
  /-- The selector of the container element. -/
  containerElement : String := "body"
  /-- The attribute that the container element has while the preview is on. -/
  modifierAttribute : String := defaultModifier
  /-- Changes media queries before they are translated. -/
  hook : Option Media.Hook := none
  debug : Bool := false
  debugFilter : Option String := none

namespace Options

/-- The guard of the preview: the container element with the attribute. -/
def previewGuard (options : Options) : String :=
  options.containerElement ++ "[" ++ options.modifierAttribute ++ "]"

/-- The guard of the viewport: the container element without the attribute. -/
def viewportGuard (options : Options) : String :=
  options.containerElement ++ ":not([" ++ options.modifierAttribute ++ "])"

/-- The text of a setting that holds one. -/
def textOr (fallback : String) : Setting → String
  | .text text => text
  | .unset => ""
  | _ => fallback

/-- The units of a setting that holds some. -/
def unitsOr (fallback : UnitMap) : Setting → UnitMap
  | .units units => units
  | _ => fallback

/-- The options with one more setting taken over. -/
def assign (options : Options) (name : OptionName) (setting : Setting) :
    Except OptionError Options :=
  match name with
  | .units => .ok { options with units := unitsOr options.units setting }
  | .typographyUnits =>
      .ok { options with typographyUnits := unitsOr options.typographyUnits setting }
  | .containerElement =>
      .ok { options with containerElement := textOr options.containerElement setting }
  | .modifierAttribute =>
      .ok { options with modifierAttribute := textOr options.modifierAttribute setting }
  | .debug =>
      .ok { options with debug := match setting with | .flag flag => flag | _ => false }
  | .debugFilter =>
      .ok { options with debugFilter := match setting with | .text text => some text | _ => none }
  | .transform =>
      match setting with
      | .hook hook => .ok { options with hook := some hook }
      | .unset => .ok { options with hook := none }
      | _ => .error .notAHook

/-- The options without an empty selector or attribute. -/
def check (options : Options) : Except OptionError Options :=
  if options.containerElement.isEmpty then .error .emptyContainer
  else if options.modifierAttribute.isEmpty then .error .emptyModifier
  else .ok options

/-- The setting that is last given for an option. -/
def lastSetting? (name : OptionName) (settings : List (OptionName × Setting)) : Option Setting :=
  (settings.reverse.find? fun entry => entry.1 == name).map Prod.snd

/-- The options with a setting taken over if one is given. -/
def assignLast (settings : List (OptionName × Setting)) (name : OptionName) (options : Options) :
    Except OptionError Options :=
  match lastSetting? name settings with
  | none => .ok options
  | some setting => options.assign name setting

/-- The options made of settings, the last of each name.  A container element
or an attribute that is empty is reported before a hook that is none. -/
def ofSettings (settings : List (OptionName × Setting)) : Except OptionError Options := do
  let options ← assignLast settings .units {}
  let options ← assignLast settings .typographyUnits options
  let options ← assignLast settings .containerElement options
  let options ← assignLast settings .modifierAttribute options
  let options ← assignLast settings .debug options
  let options ← assignLast settings .debugFilter options
  let options ← options.check
  assignLast settings .transform options

/-- The settings with their options, or the first name that is none. -/
def named : OrderedMap Setting → Except OptionError (List (OptionName × Setting))
  | [] => .ok []
  | (name, setting) :: settings =>
      match OptionName.ofName? name with
      | none => .error (.unknownOption name)
      | some option => do return (option, setting) :: (← named settings)

/-- The settings with a typography map derived from the unit map, if the unit
map is given and the typography map is not. -/
def withDerivedTypography (settings : List (OptionName × Setting)) :
    List (OptionName × Setting) :=
  match lastSetting? .units settings, lastSetting? .typographyUnits settings with
  | some (.units units), none => settings ++ [(.typographyUnits, .units units.forTypography)]
  | _, _ => settings

/-- Resolves named settings, those of `overrides` put over those of
`settings`. -/
def resolve (settings overrides : OrderedMap Setting) : Except OptionError Options := do
  let named ← named (OrderedMap.putAll (OrderedMap.ofEntries settings) overrides)
  ofSettings (withDerivedTypography named)

/-- The options that a transform is made with: given ones, or resolved ones, but
not both. -/
def choose (preset : Option Options) (overrides : OrderedMap Setting) :
    Except OptionError Options :=
  match preset with
  | none => resolve [] overrides
  | some options => if overrides.isEmpty then .ok options else .error .presetAndSettings

end Options

end ContainerPreview
