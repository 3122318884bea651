import ContainerPreview.Proofs.Options.Merged

/-!
# Where the value of an option comes from

Settings are resolved by putting overrides over them by name, and the last entry for an option
decides its value.  So overrides win, but for one case: if the settings name an option under both
of its names and the overrides under the earlier of these only, the later entry of the settings
keeps its place behind the override and decides.
-/

namespace ContainerPreview

open OrderedMap

/-- The setting is of the kind that the option takes. -/
def Setting.suits : Setting → OptionName → Bool
  | .units _, .units | .units _, .typographyUnits => true
  | .text _, .containerElement | .text _, .modifierAttribute | .text _, .debugFilter => true
  | .flag _, .debug => true
  | .hook _, .transform => true
  | .unset, .debugFilter | .unset, .transform => true
  | _, _ => false

namespace OptionName

/-- The overrides name the option, and under each name that they use they give it the setting. -/
def IsOverridden (name : OptionName) (overrides : OrderedMap Setting) (setting : Setting) : Prop :=
  name.entriesIn overrides ≠ [] ∧ ∀ entry ∈ name.entriesIn overrides, entry.2 = setting

/-- The settings give the option under both of its names, the second time by the given entry,
and the overrides use the first of these names only. -/
def IsOutlasted (name : OptionName) (settings overrides : OrderedMap Setting)
    (later : String × Setting) : Prop :=
  ∃ earlier, name.entriesIn (ofEntries settings) = [earlier, later] ∧
    earlier.1 ∈ overrides.map Prod.fst ∧ later.1 ∉ overrides.map Prod.fst

end OptionName

namespace Options

/-- The value of an option, as the setting that gives it. -/
def settingOf (options : Options) : OptionName → Setting
  | .units => .units options.units
  | .typographyUnits => .units options.typographyUnits
  | .containerElement => .text options.containerElement
  | .modifierAttribute => .text options.modifierAttribute
  | .transform => options.hook.elim .unset .hook
  | .debug => .flag options.debug
  | .debugFilter => options.debugFilter.elim .unset .text

/-- The value of an option that is not set, given the unit map: the typography map goes with the
unit map, and every other option is that of the standard options. -/
def fallback (units : UnitMap) : OptionName → Setting
  | .typographyUnits => .units units.forTypography
  | name => settingOf {} name

/-! ## Assigning settings -/

section Assign

variable {options options' : Options} {name other : OptionName} {setting : Setting}
  {settings : List (OptionName × Setting)}

theorem settingOf_assign (assigned : options.assign name setting = .ok options')
    (suits : setting.suits name) : options'.settingOf name = setting := by
  cases name <;> cases setting <;> cases suits <;> cases assigned <;> rfl

theorem settingOf_assign_of_ne (assigned : options.assign name setting = .ok options')
    (different : other ≠ name) : options'.settingOf other = options.settingOf other := by
  cases name with
  | transform =>
      cases setting <;> cases assigned <;> cases other <;> first | rfl | exact absurd rfl different
  | _ =>
      cases assigned
      cases other <;> first | rfl | exact absurd rfl different

theorem settingOf_assignLast_of_ne (assigned : assignLast settings name options = .ok options')
    (different : other ≠ name) : options'.settingOf other = options.settingOf other := by
  unfold assignLast at assigned
  split at assigned
  · cases assigned
    rfl
  · exact settingOf_assign_of_ne assigned different

theorem settingOf_assignLast_of_none (assigned : assignLast settings name options = .ok options')
    (isNone : lastSetting? name settings = none) : options' = options := by
  rw [assignLast, isNone] at assigned
  cases assigned
  rfl

theorem settingOf_assignLast (assigned : assignLast settings name options = .ok options')
    (isLast : lastSetting? name settings = some setting) (suits : setting.suits name) :
    options'.settingOf name = setting := by
  rw [assignLast, isLast] at assigned
  exact settingOf_assign assigned suits

end Assign

/-! ## All settings -/

theorem exists_of_bind_eq_ok {ε α β : Type} {first : Except ε α} {next : α → Except ε β} {value : β}
    (done : first >>= next = .ok value) : ∃ between, first = .ok between ∧ next between = .ok value := by
  cases first with
  | error => cases done
  | ok between => exact ⟨between, rfl, done⟩

theorem eq_of_check {options options' : Options} (checked : options.check = .ok options') :
    options' = options := by
  unfold check at checked
  split at checked
  · cases checked
  · split at checked
    · cases checked
    · cases checked
      rfl

/-- What assigning the settings of the options one after another comes to, for one option. -/
theorem exists_assignLast {settings : List (OptionName × Setting)} {options : Options}
    (made : ofSettings settings = .ok options) (name : OptionName) :
    ∃ before after, before.settingOf name = settingOf {} name ∧
      assignLast settings name before = .ok after ∧
      options.settingOf name = after.settingOf name := by
  obtain ⟨withUnits, ofUnits, made⟩ := exists_of_bind_eq_ok made
  obtain ⟨withTypography, ofTypography, made⟩ := exists_of_bind_eq_ok made
  obtain ⟨withContainer, ofContainer, made⟩ := exists_of_bind_eq_ok made
  obtain ⟨withModifier, ofModifier, made⟩ := exists_of_bind_eq_ok made
  obtain ⟨withDebug, ofDebug, made⟩ := exists_of_bind_eq_ok made
  obtain ⟨withFilter, ofFilter, made⟩ := exists_of_bind_eq_ok made
  obtain ⟨checked, ofCheck, ofTransform⟩ := exists_of_bind_eq_ok made
  obtain rfl := eq_of_check ofCheck
  have afterUnits (other : OptionName) (different : other ≠ .units) :=
    settingOf_assignLast_of_ne ofUnits different
  have afterTypography (other : OptionName) (different : other ≠ .typographyUnits) :=
    settingOf_assignLast_of_ne ofTypography different
  have afterContainer (other : OptionName) (different : other ≠ .containerElement) :=
    settingOf_assignLast_of_ne ofContainer different
  have afterModifier (other : OptionName) (different : other ≠ .modifierAttribute) :=
    settingOf_assignLast_of_ne ofModifier different
  have afterDebug (other : OptionName) (different : other ≠ .debug) :=
    settingOf_assignLast_of_ne ofDebug different
  have afterFilter (other : OptionName) (different : other ≠ .debugFilter) :=
    settingOf_assignLast_of_ne ofFilter different
  have afterTransform (other : OptionName) (different : other ≠ .transform) :=
    settingOf_assignLast_of_ne ofTransform different
  cases name with
  | units => exact ⟨_, _, by simp [*], ofUnits, by simp [*]⟩
  | typographyUnits => exact ⟨_, _, by simp [*], ofTypography, by simp [*]⟩
  | containerElement => exact ⟨_, _, by simp [*], ofContainer, by simp [*]⟩
  | modifierAttribute => exact ⟨_, _, by simp [*], ofModifier, by simp [*]⟩
  | debug => exact ⟨_, _, by simp [*], ofDebug, by simp [*]⟩
  | debugFilter => exact ⟨_, _, by simp [*], ofFilter, by simp [*]⟩
  | transform => exact ⟨_, _, by simp [*], ofTransform, rfl⟩

/-- The last setting that is given for an option decides. -/
theorem settingOf_ofSettings {settings : List (OptionName × Setting)} {options : Options}
    (made : ofSettings settings = .ok options) {name : OptionName} {setting : Setting}
    (isLast : lastSetting? name settings = some setting) (suits : setting.suits name) :
    options.settingOf name = setting := by
  obtain ⟨before, after, -, assigned, same⟩ := exists_assignLast made name
  rw [same, settingOf_assignLast assigned isLast suits]

theorem settingOf_ofSettings_of_none {settings : List (OptionName × Setting)} {options : Options}
    (made : ofSettings settings = .ok options) {name : OptionName}
    (isNone : lastSetting? name settings = none) :
    options.settingOf name = settingOf {} name := by
  obtain ⟨before, after, isStandard, assigned, same⟩ := exists_assignLast made name
  rw [same, settingOf_assignLast_of_none assigned isNone, isStandard]

/-- What is no unit map leaves the standard one. -/
theorem units_of_not_suits {settings : List (OptionName × Setting)} {options : Options}
    (made : ofSettings settings = .ok options) {setting : Setting}
    (isLast : lastSetting? .units settings = some setting) (notSuits : ¬ setting.suits .units) :
    options.units = .standard := by
  obtain ⟨before, after, isStandard, assigned, same⟩ := exists_assignLast made .units
  have kept : after.units = before.units := by
    rw [assignLast, isLast] at assigned
    cases assigned
    cases setting <;> first | rfl | exact absurd rfl notSuits
  rw [Setting.units.inj same, kept, Setting.units.inj isStandard]

/-! ## Names of settings -/

theorem lastSetting?_eq (name : OptionName) (settings : List (OptionName × Setting)) :
    lastSetting? name settings =
      (settings.filter fun entry => entry.1 == name).getLast?.map Prod.snd := by
  rw [lastSetting?, ← List.head?_filter, List.filter_reverse, List.head?_reverse]

/-- Naming keeps the settings of every option in their order. -/
theorem lastSetting?_named {raw : OrderedMap Setting} {settings : List (OptionName × Setting)}
    (isNamed : named raw = .ok settings) (name : OptionName) :
    lastSetting? name settings = (name.entriesIn raw).getLast?.map Prod.snd := by
  have sameSettings : (settings.filter fun entry => entry.1 == name).map Prod.snd =
      (name.entriesIn raw).map Prod.snd := by
    induction raw generalizing settings with
    | nil =>
        cases isNamed
        rfl
    | cons entry raw inductionHypothesis =>
        obtain ⟨key, setting⟩ := entry
        rw [named] at isNamed
        cases isName : OptionName.ofName? key with
        | none =>
            rw [isName] at isNamed
            cases isNamed
        | some own =>
            rw [isName] at isNamed
            obtain ⟨rest, restNamed, done⟩ := exists_of_bind_eq_ok isNamed
            cases done
            have ofRest := inductionHypothesis restNamed
            simp only [OptionName.entriesIn] at ofRest ⊢
            by_cases same : own = name <;> simp [isName, same, ofRest]
  rw [lastSetting?_eq, ← List.getLast?_map, ← List.getLast?_map, sameSettings]

/-! ## The typography map -/

theorem lastSetting?_append_singleton (name own : OptionName)
    (settings : List (OptionName × Setting)) (setting : Setting) :
    lastSetting? name (settings ++ [(own, setting)]) =
      if own = name then some setting else lastSetting? name settings := by
  by_cases same : own = name <;> simp [lastSetting?_eq, List.filter_append, same]

/-- Deriving the typography map leaves all settings that are given alone. -/
theorem lastSetting?_withDerivedTypography_of_some {settings : List (OptionName × Setting)}
    {name : OptionName} {setting : Setting} (isLast : lastSetting? name settings = some setting) :
    lastSetting? name (withDerivedTypography settings) = some setting := by
  unfold withDerivedTypography
  split
  · rename_i isNone
    rw [lastSetting?_append_singleton, if_neg, isLast]
    rintro rfl
    rw [isNone] at isLast
    cases isLast
  · exact isLast

theorem lastSetting?_withDerivedTypography_of_ne {settings : List (OptionName × Setting)}
    {name : OptionName} (different : name ≠ .typographyUnits) :
    lastSetting? name (withDerivedTypography settings) = lastSetting? name settings := by
  unfold withDerivedTypography
  split
  · rw [lastSetting?_append_singleton, if_neg (Ne.symm different)]
  · rfl

/-- A typography map that is not given goes with the unit map. -/
theorem typographyUnits_of_none {settings : List (OptionName × Setting)} {options : Options}
    (made : ofSettings (withDerivedTypography settings) = .ok options)
    (isNone : lastSetting? .typographyUnits settings = none) :
    options.typographyUnits = options.units.forTypography := by
  have unitsKept : lastSetting? .units (withDerivedTypography settings) =
      lastSetting? .units settings := lastSetting?_withDerivedTypography_of_ne (by simp)
  rcases isUnits : lastSetting? .units settings with _ | setting
  · have notDerived : withDerivedTypography settings = settings := by
      rw [withDerivedTypography, isUnits]
    rw [notDerived] at made
    have units := settingOf_ofSettings_of_none made isUnits
    have typography := settingOf_ofSettings_of_none made isNone
    rw [Setting.units.inj units, Setting.units.inj typography]
    rfl
  · by_cases suits : setting.suits .units
    · obtain ⟨given, rfl⟩ : ∃ given, setting = .units given := by
        cases setting <;> cases suits
        exact ⟨_, rfl⟩
      have derived : lastSetting? .typographyUnits (withDerivedTypography settings) =
          some (.units given.forTypography) := by
        rw [withDerivedTypography, isUnits, isNone, lastSetting?_append_singleton, if_pos rfl]
      have units := settingOf_ofSettings made (unitsKept.trans isUnits) rfl
      have typography := settingOf_ofSettings made derived rfl
      rw [Setting.units.inj units, Setting.units.inj typography]
    · have notDerived : withDerivedTypography settings = settings := by
        unfold withDerivedTypography
        split
        · rename_i isMap _
          rw [isUnits] at isMap
          cases isMap
          exact absurd rfl suits
        · rfl
      rw [notDerived] at made
      have units := units_of_not_suits made isUnits suits
      have typography := settingOf_ofSettings_of_none made isNone
      rw [units, Setting.units.inj typography]
      rfl

/-! ## Resolved settings -/

section Resolve

variable {settings overrides : OrderedMap Setting} {options : Options} {name : OptionName}

/-- The entries of an option in the settings with the overrides put over them. -/
def mergedEntries (name : OptionName) (settings overrides : OrderedMap Setting) :
    OrderedMap Setting :=
  putAll (name.entriesIn (ofEntries settings)) (name.entriesIn overrides)

theorem exists_named_of_resolve (accepted : resolve settings overrides = .ok options) :
    ∃ given, ofSettings (withDerivedTypography given) = .ok options ∧
      ∀ name, lastSetting? name given =
        (mergedEntries name settings overrides).getLast?.map Prod.snd := by
  obtain ⟨given, isNamed, made⟩ := exists_of_bind_eq_ok accepted
  refine ⟨given, made, fun name => ?_⟩
  rw [lastSetting?_named isNamed, OptionName.entriesIn_putAll, mergedEntries]

/-- The last entry of an option decides its value. -/
theorem settingOf_resolve (accepted : resolve settings overrides = .ok options) {setting : Setting}
    (ends : EndsWith (mergedEntries name settings overrides) setting)
    (suits : setting.suits name) : options.settingOf name = setting := by
  obtain ⟨given, made, isLast⟩ := exists_named_of_resolve accepted
  obtain ⟨key, isEntry⟩ := ends
  refine settingOf_ofSettings made (lastSetting?_withDerivedTypography_of_some ?_) suits
  rw [isLast, isEntry, Option.map_some]

theorem settingOf_resolve_of_nil (accepted : resolve settings overrides = .ok options)
    (isNil : mergedEntries name settings overrides = []) :
    options.settingOf name = fallback options.units name := by
  obtain ⟨given, made, isLast⟩ := exists_named_of_resolve accepted
  have isNone : lastSetting? name given = none := by
    rw [isLast, isNil]
    rfl
  by_cases isTypography : name = .typographyUnits
  · subst isTypography
    rw [settingOf, typographyUnits_of_none made isNone]
    rfl
  · rw [← lastSetting?_withDerivedTypography_of_ne isTypography] at isNone
    rw [settingOf_ofSettings_of_none made isNone]
    cases name <;> first | rfl | exact absurd rfl isTypography

theorem mergedEntries_eq_nil (noOverride : name.entriesIn overrides = [])
    (notSet : name.entriesIn settings = []) : mergedEntries name settings overrides = [] := by
  have noKeys : name.entriesIn (ofEntries settings) = [] := by
    rw [List.eq_nil_iff_forall_not_mem] at notSet ⊢
    intro entry member
    obtain ⟨isEntry, isName⟩ := OptionName.mem_entriesIn.mp member
    exact notSet entry (OptionName.mem_entriesIn.mpr ⟨mem_of_mem_ofEntries isEntry, isName⟩)
  rw [mergedEntries, noOverride, noKeys]
  rfl

/-- An override comes last, unless the settings outlast it. -/
theorem endsWith_mergedEntries {setting : Setting} (isOverridden : name.IsOverridden overrides setting)
    (notOutlasted : ∀ later, ¬ name.IsOutlasted settings overrides later) :
    EndsWith (mergedEntries name settings overrides) setting := by
  obtain ⟨isNamed, areSame⟩ := isOverridden
  by_cases isNew : ∃ entry ∈ name.entriesIn overrides,
      entry.1 ∉ (name.entriesIn (ofEntries settings)).map Prod.fst
  · exact endsWith_putAll_of_new areSame isNew
  · push Not at isNew
    obtain ⟨first, isFirst⟩ := List.exists_mem_of_ne_nil _ isNamed
    obtain ⟨earlier, isEarlier, sameKey⟩ := List.mem_map.mp (isNew first isFirst)
    have length := name.length_entriesIn_ofEntries_le settings
    have nodup := name.nodup_entriesIn_ofEntries settings
    rcases isLast : (name.entriesIn (ofEntries settings)).getLast? with _ | ⟨last, old⟩
    · rw [List.getLast?_eq_none_iff.mp isLast] at isEarlier
      cases isEarlier
    · by_cases isPut : last ∈ (name.entriesIn overrides).map Prod.fst
      · exact endsWith_putAll_of_last nodup isLast areSame isPut
      · refine absurd ?_ (notOutlasted (last, old))
        obtain ⟨front, isMap⟩ := List.getLast?_eq_some_iff.mp isLast
        rw [isMap] at isEarlier length
        have inFront : earlier ∈ front := by
          rcases List.mem_append.mp isEarlier with inFront | isLast
          · exact inFront
          · obtain rfl := List.mem_singleton.mp isLast
            have isFirstKey : last = first.1 := sameKey
            exact absurd (isFirstKey ▸ List.mem_map_of_mem isFirst) isPut
        obtain ⟨only, rfl⟩ : ∃ only, front = [only] := by
          refine List.length_eq_one_iff.mp (Nat.le_antisymm ?_ (List.length_pos_of_mem inFront))
          simpa using length
        obtain rfl := List.mem_singleton.mp inFront
        have isOwn : (last, old) ∈ name.entriesIn (ofEntries settings) := by
          rw [isMap]
          simp
        refine ⟨earlier, isMap, ?_, fun isPut' => isPut ?_⟩
        · rw [sameKey]
          exact List.mem_map_of_mem (OptionName.mem_entriesIn.mp isFirst).1
        · rw [OptionName.mem_keys_entriesIn]
          exact ⟨isPut', (OptionName.mem_entriesIn.mp isOwn).2⟩

/-- Where the settings outlast the overrides, their later entry comes last. -/
theorem endsWith_mergedEntries_of_outlasted {later : String × Setting}
    (outlasted : name.IsOutlasted settings overrides later) :
    EndsWith (mergedEntries name settings overrides) later.2 := by
  obtain ⟨earlier, isMap, -, notPut⟩ := outlasted
  have isLast : (name.entriesIn (ofEntries settings)).getLast? = some later := by
    rw [isMap]
    rfl
  have twoNames : name.names.length ≤ ((name.entriesIn (ofEntries settings)).map Prod.fst).length := by
    rw [isMap]
    exact name.length_names_le
  refine ⟨later.1, getLast?_putAll isLast (fun entry member => ?_) fun isPut => notPut ?_⟩
  · exact name.mem_keys_of_length_names_le twoNames (OptionName.mem_entriesIn.mp member).2
  · exact (OptionName.mem_keys_entriesIn.mp isPut).1

/-- Settings that are accepted give every option its value in one of these ways.  An option that
the overrides name has the value that they give it, but if the settings outlast them, it has the
later value of the settings.  An option that only the settings name has the last value that they
give it.  Every other option has its standard value, and the typography map goes with the unit
map. -/
theorem resolve_decides (accepted : resolve settings overrides = .ok options) (name : OptionName) :
    (∀ setting, name.IsOverridden overrides setting → setting.suits name →
        (∀ later, ¬ name.IsOutlasted settings overrides later) →
          options.settingOf name = setting) ∧
      (∀ later, name.IsOutlasted settings overrides later → later.2.suits name →
        options.settingOf name = later.2) ∧
      (name.entriesIn overrides = [] → ∀ last,
        (name.entriesIn (ofEntries settings)).getLast? = some last → last.2.suits name →
          options.settingOf name = last.2) ∧
      (name.entriesIn overrides = [] → name.entriesIn settings = [] →
        options.settingOf name = fallback options.units name) := by
  refine ⟨?_, ?_, ?_, ?_⟩
  · intro setting isOverridden suits notOutlasted
    exact settingOf_resolve accepted (endsWith_mergedEntries isOverridden notOutlasted) suits
  · intro later outlasted suits
    exact settingOf_resolve accepted (endsWith_mergedEntries_of_outlasted outlasted) suits
  · intro noOverride last isLast suits
    refine settingOf_resolve accepted ⟨last.1, ?_⟩ suits
    rw [mergedEntries, noOverride]
    exact isLast
  · intro noOverride notSet
    exact settingOf_resolve_of_nil accepted (mergedEntries_eq_nil noOverride notSet)

end Resolve

/-- The container element is given under both names and overridden under the later, the filter is
overridden under the earlier of its names, the unit map is overridden, and the attribute is only
set. -/
theorem resolve_decides_bothNames :
    let settings := [("containerEl", Setting.text "main"), ("container_el", .text "html"),
      ("modifierAttr", .text "data-x"), ("debugFilter", .text "a"), ("debug_filter", .text "b")]
    let overrides := [("container_el", Setting.text "#app"), ("debugFilter", .text "c"),
      ("units", .units [("vmin", "cqmin")])]
    ∃ options, resolve settings overrides = .ok options ∧
      options.settingOf .containerElement = .text "#app" ∧
      options.settingOf .debugFilter = .text "b" ∧
      options.settingOf .modifierAttribute = .text "data-x" ∧
      options.settingOf .typographyUnits = fallback options.units .typographyUnits := by
  intro settings overrides
  have accepted : resolve settings overrides = .ok
      { units := [("vmin", "cqmin")], typographyUnits := [("vmin", "cqi")],
        containerElement := "#app", modifierAttribute := "data-x", debugFilter := some "b" } := rfl
  have container : OptionName.entriesIn .containerElement overrides =
      [("container_el", .text "#app")] := rfl
  obtain ⟨overridden, -, -, -⟩ := resolve_decides accepted .containerElement
  obtain ⟨-, outlasted, -, -⟩ := resolve_decides accepted .debugFilter
  obtain ⟨-, -, onlySet, -⟩ := resolve_decides accepted .modifierAttribute
  obtain ⟨-, -, -, notSet⟩ := resolve_decides accepted .typographyUnits
  refine ⟨_, accepted, overridden _ ⟨by simp [container], by simp [container]⟩ rfl ?_,
    outlasted ("debug_filter", .text "b") ⟨("debugFilter", .text "a"), rfl, ?_, ?_⟩ rfl,
    onlySet rfl ("modifierAttr", .text "data-x") rfl rfl, notSet rfl rfl⟩
  · rintro later ⟨earlier, isMap, -, notPut⟩
    cases isMap
    exact notPut (by simp [overrides])
  · simp [overrides]
  · simp [overrides]

/-- An override loses to a setting that stands behind it under the other name of its option. -/
theorem not_resolve_overrides :
    ¬ ∀ (settings overrides : OrderedMap Setting) (options : Options),
      resolve settings overrides = .ok options →
        ∀ (name : OptionName) (setting : Setting), name.IsOverridden overrides setting →
          setting.suits name → options.settingOf name = setting := by
  intro overridesWin
  have accepted : resolve [("containerEl", .text "main"), ("container_el", .text "html")]
      [("containerEl", .text "#app")] = .ok { containerElement := "html" } := rfl
  have container : OptionName.entriesIn .containerElement [("containerEl", .text "#app")] =
      [("containerEl", .text "#app")] := rfl
  have wins := overridesWin _ _ _ accepted .containerElement (.text "#app")
    ⟨by simp [container], by simp [container]⟩ rfl
  exact absurd (Setting.text.inj wins) (by decide)

end Options

end ContainerPreview
