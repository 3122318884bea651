import ContainerPreview.Proofs.Value.Literals

/-!
# Conversion settles

Two maps with the same units, whose words are no units themselves, leave no unit in the value of
any property, and what they gave they leave alone.  The first conversion may give the second one
other texts to cut: arguments with other blanks around them, sums that are turned around.  But
no quantity, head of a call or literal comes about that was not there.

This is for values in ASCII in which no backslash takes an end of line.  A string with such an
end of line is none for the conversion, which then works on its text as on free text.
-/

namespace ContainerPreview

open Text

namespace Converter

/-- With two maps for the same units the one for typography is in use. -/
theorem typographyUnits_ofMaps {units typography : UnitMap}
    (sameKeys : ∀ name, name ∈ units.map Prod.fst ↔ name ∈ typography.map Prod.fst) :
    (ofMaps units (some typography)).typographyUnits = typography.lowerUnits := by
  cases typography with
  | cons entry entries => rfl
  | nil =>
      cases units with
      | nil => rfl
      | cons entry entries => exact absurd ((sameKeys entry.1).mp (by simp)) (by simp)

/-- A converted value has no unit and is converted to itself. -/
theorem convertFor_settles {units typography : UnitMap} (settles : units.Settles)
    (settlesTypography : typography.Settles)
    (sameKeys : ∀ name, name ∈ units.map Prod.fst ↔ name ∈ typography.map Prod.fst)
    (property : String) {value : String} (ascii : IsAscii value.toList)
    (unbroken : Value.isUnbroken false value.toList) :
    let converter := ofMaps units (some typography)
    converter.hasUnits (converter.convertFor property value) = false ∧
      converter.convertFor property (converter.convertFor property value) =
        converter.convertFor property value := by
  intro converter
  obtain ⟨settlesScheme, sameNames⟩ := settles_schemeFor (typographyUnits_ofMaps sameKeys)
    settles settlesTypography sameKeys property
  have isUnbroken : Value.Unbroken value.toList := Value.isUnbroken_iff.mp unbroken
  constructor
  · rw [hasUnits_eq_false_iff settlesScheme.hasNames sameNames, convertFor, String.toList_ofList]
    exact Value.unitsOf_convert settlesScheme ascii isUnbroken
  · rw [convertFor, convertFor, String.toList_ofList]
    exact congrArg String.ofList (Value.convert_convert settlesScheme ascii isUnbroken)

/-- A typographic value with a sum to turn around in an argument, an argument that is not closed
and a string that holds a quote. -/
theorem convertFor_settles_unclosedValue :
    let units : UnitMap := [("Vw", "cqw"), ("vmin", "cqmin")]
    let typography : UnitMap := [("vmin", "cqi"), ("Vw", "cqi")]
    let value := "'\\'1vw' clamp( 1VW+2REM ,calc(3vmin), -4vw) calc(5vw"
    let converter := ofMaps units (some typography)
    (units.Settles ∧ typography.Settles ∧
      (∀ name, name ∈ units.map Prod.fst ↔ name ∈ typography.map Prod.fst) ∧
        IsAscii value.toList ∧ Value.isUnbroken false value.toList) ∧
      converter.hasUnits (converter.convertFor "font-size" value) = false ∧
        converter.convertFor "font-size" (converter.convertFor "font-size" value) =
          converter.convertFor "font-size" value := by
  intro units typography value converter
  have settles : units.Settles := by
    constructor <;> decide
  have settlesTypography : typography.Settles := by
    constructor <;> decide
  have sameKeys : ∀ name, name ∈ units.map Prod.fst ↔ name ∈ typography.map Prod.fst := by
    intro name
    simp [units, typography, or_comm]
  have ascii : IsAscii value.toList := by decide
  have unbroken : Value.isUnbroken false value.toList := by decide
  exact ⟨⟨settles, settlesTypography, sameKeys, ascii, unbroken⟩,
    convertFor_settles settles settlesTypography sameKeys "font-size" ascii unbroken⟩

/-- A string in which a backslash takes an end of line, a viewport unit and a string. -/
def brokenValue : String :=
  "\"clamp(\\\n, 1px)\" 1vw \"x\""

/-- With the maps used by default such a value keeps its unit, which only a second conversion
swaps: the first one takes the end of line out of what it does not see as a string. -/
theorem not_convertFor_settles :
    (UnitMap.standard.Settles ∧ UnitMap.standardTypography.Settles ∧
      (∀ name, name ∈ UnitMap.standard.map Prod.fst ↔
        name ∈ UnitMap.standardTypography.map Prod.fst) ∧ IsAscii brokenValue.toList) ∧
      standard.hasUnits (standard.convertFor "--frame" brokenValue) ∧
        standard.convertFor "--frame" (standard.convertFor "--frame" brokenValue) ≠
          standard.convertFor "--frame" brokenValue := by
  have sameKeys : UnitMap.standardTypography.map Prod.fst = UnitMap.standard.map Prod.fst := by
    decide
  refine ⟨⟨settles_standard.1, settles_standard.2, ?_, by decide⟩, ?_, ?_⟩
  · exact fun name => by rw [sameKeys]
  · decide +kernel
  · decide +kernel

end Converter

end ContainerPreview
