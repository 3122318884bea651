import ContainerPreview.Proofs.Value.Arranged
import ContainerPreview.Proofs.Value.Map
import ContainerPreview.Proofs.Value.Spans

/-!
# Conversion as a single pass

Conversion takes the free text of a value apart at its calls of `calc` and `clamp`, down to
any depth.  None of its cuts is seen in the result: where no sum is turned around, conversion is
the same as swapping units from left to right in one pass over each stretch of free text, but
for the blanks around the arguments of `clamp`.
-/

namespace ContainerPreview

open Text

namespace Value

/-! ## Texts with `clamp` -/

/-- The head of `clamp`. -/
def clampHead : List Char :=
  ['c', 'l', 'a', 'm', 'p', '(']

/-- The function `clamp` with its parenthesis stands in a text after `previous`, where no name
goes on. -/
def hasClampFrom (previous : Option Char) : List Char → Bool
  | [] => false
  | c :: text =>
      (!previous.any isNameChar && (dropStartFolded? clampHead (c :: text)).isSome) ||
        hasClampFrom (some c) text

/-- A text has no `clamp` if the whole that it is a part of has none. -/
theorem hasClampFrom_of_append {previous : Option Char} {left right : List Char}
    (noClamp : hasClampFrom previous (left ++ right) = false) :
    hasClampFrom previous left = false ∧ hasClampFrom (lastAfter previous left) right = false := by
  induction left generalizing previous with
  | nil => exact ⟨rfl, noClamp⟩
  | cons c left inductionHypothesis =>
      rw [List.cons_append, hasClampFrom, Bool.or_eq_false_iff] at noClamp
      obtain ⟨ofLeft, ofRight⟩ := inductionHypothesis noClamp.2
      refine ⟨?_, ofRight⟩
      rw [hasClampFrom, Bool.or_eq_false_iff]
      refine ⟨?_, ofLeft⟩
      rw [Bool.and_eq_false_iff] at noClamp ⊢
      refine noClamp.1.imp_right fun noHead => ?_
      by_contra isHead
      rw [Bool.not_eq_false] at isHead
      obtain ⟨rest, dropped⟩ := Option.isSome_iff_exists.mp isHead
      rw [← List.cons_append, dropStartFolded?_append dropped right] at noHead
      cases noHead

theorem hasClampFrom_of_notName {previous : Option Char}
    (notName : previous.any isNameChar = false) (text : List Char) :
    hasClampFrom previous text = hasClampFrom none text := by
  cases text with
  | nil => rfl
  | cons c text => simp [hasClampFrom, notName]

theorem hasClampFrom_of_head {previous : Option Char} {left right : List Char}
    (notName : (lastAfter previous left).any isNameChar = false)
    (isHead : (dropStartFolded? clampHead right).isSome) :
    hasClampFrom previous (left ++ right) := by
  by_contra noClamp
  have ofRight := (hasClampFrom_of_append (Bool.eq_false_iff.mpr noClamp)).2
  cases right with
  | nil => cases isHead
  | cons c right =>
      rw [hasClampFrom, notName, isHead] at ofRight
      cases ofRight

/-- A text without `clamp` has none behind a separator. -/
theorem hasClampFrom_of_separator {previous : Option Char} {left right : List Char} {c : Char}
    (separates : isSeparator c) (noClamp : hasClampFrom previous (left ++ c :: right) = false) :
    hasClampFrom none right = false := by
  have ofRight := (hasClampFrom_of_append noClamp).2
  rw [hasClampFrom, Bool.or_eq_false_iff] at ofRight
  have notName : (some c).any isNameChar = false := (notNumber_of_isSeparator separates).1
  rw [← hasClampFrom_of_notName notName]
  exact ofRight.2

/-- A first call of `clamp` is one of `clamp`. -/
theorem Call.IsFirst.hasClamp {text : List Char} {call : Call} (isFirst : call.IsFirst text)
    (isClamp : call.function = .clamp) : hasClampFrom none text := by
  obtain ⟨same, spells, notName, -⟩ := isFirst.hasHead
  rw [isClamp] at spells
  rw [same]
  exact hasClampFrom_of_head notName
    (isSome_dropStartFolded?_opening.mpr ⟨call.name, _, rfl, spells⟩)

/-! ## Texts without their blanks -/

/-- A text without its blanks. -/
def withoutBlanks (text : List Char) : List Char :=
  text.filter fun c => !isBlank c

theorem withoutBlanks_append (left right : List Char) :
    withoutBlanks (left ++ right) = withoutBlanks left ++ withoutBlanks right :=
  List.filter_append left right

theorem withoutBlanks_cons {c : Char} (notBlank : isBlank c = false) (text : List Char) :
    withoutBlanks (c :: text) = c :: withoutBlanks text := by
  simp [withoutBlanks, notBlank]

theorem withoutBlanks_of_blanks {blanks : List Char} (areBlank : ∀ c ∈ blanks, isBlank c) :
    withoutBlanks blanks = [] :=
  List.filter_eq_nil_iff.mpr fun c member => by simp [areBlank c member]

namespace Scheme

variable {scheme : Scheme}

theorem withoutBlanks_swapUnits_trim (hasNames : scheme.HasNames) (text : List Char) :
    withoutBlanks (scheme.swapUnits (trim text)) = withoutBlanks (scheme.swapUnits text) := by
  obtain ⟨left, right, same, leftBlank, rightBlank⟩ := exists_append_trim text
  nth_rewrite 2 [same]
  rw [swapUnits_between hasNames leftBlank rightBlank, withoutBlanks_append, withoutBlanks_append,
    withoutBlanks_of_blanks leftBlank, withoutBlanks_of_blanks rightBlank, List.append_nil,
    List.nil_append]

theorem withoutBlanks_intercalate {parts parts' : List (List Char)}
    (same : parts.map withoutBlanks = parts'.map withoutBlanks) :
    withoutBlanks ([',', ' '].intercalate parts) = withoutBlanks ([','].intercalate parts') := by
  induction parts generalizing parts' with
  | nil =>
      obtain rfl : parts' = [] := by simpa using same.symm
      rfl
  | cons part parts inductionHypothesis =>
      obtain ⟨part', parts', rfl⟩ : ∃ part' others, parts' = part' :: others := by
        cases parts' with
        | nil => cases same
        | cons part' others => exact ⟨part', others, rfl⟩
      rw [List.map_cons, List.map_cons, List.cons.injEq] at same
      obtain ⟨samePart, sameParts⟩ := same
      have ofRest := inductionHypothesis sameParts
      cases parts with
      | nil =>
          obtain rfl : parts' = [] := by simpa using sameParts.symm
          simpa using samePart
      | cons later parts =>
          obtain ⟨later', parts', rfl⟩ : ∃ later' others, parts' = later' :: others := by
            cases parts' with
            | nil => cases sameParts
            | cons later' others => exact ⟨later', others, rfl⟩
          rw [List.intercalate_cons_cons, List.intercalate_cons_cons, withoutBlanks_append,
            withoutBlanks_append, withoutBlanks_append, withoutBlanks_append, samePart, ofRest]
          rfl

/-! ## Conversion and one pass -/

/-- No sum is turned around in a text: none is by the scheme, or no quantity is in the text. -/
def NoSums (scheme : Scheme) (text : List Char) : Prop :=
  scheme.turnsSums = false ∨ unitsOf scheme.names text = []

theorem NoSums.not_isSum (hasNames : scheme.HasNames) {text : List Char}
    (noSums : scheme.NoSums text) : ¬ scheme.IsSum text := by
  rcases noSums with noSums | noUnits
  · rintro ⟨turns, -⟩
    rw [noSums] at turns
    cases turns
  · exact not_isSum_of_unitsOf hasNames noUnits

theorem NoSums.of_isFirst (hasNames : scheme.HasNames) {text : List Char} {call : Call}
    (isFirst : call.IsFirst text) (noSums : scheme.NoSums text) :
    scheme.NoSums call.body ∧ scheme.NoSums call.after := by
  rcases noSums with noSums | noUnits
  · exact ⟨.inl noSums, .inl noSums⟩
  · rw [isFirst.unitsOf hasNames, List.append_eq_nil_iff, List.append_eq_nil_iff] at noUnits
    exact ⟨.inr noUnits.2.1, .inr noUnits.2.2⟩

theorem NoSums.of_split (hasNames : scheme.HasNames) {text part : List Char}
    (isPart : part ∈ splitTopLevel ',' text) (noSums : scheme.NoSums text) :
    scheme.NoSums (trim part) := by
  rcases noSums with noSums | noUnits
  · exact .inl noSums
  · have joined : [','].intercalate (splitTopLevel ',' text) = text :=
      intercalate_splitFrom ',' Scan.start text
    rw [← joined, unitsOf_comma hasNames, List.flatMap_eq_nil_iff] at noUnits
    exact .inr ((unitsOf_trim hasNames part).trans (noUnits part isPart))

/-- Conversion swaps the units of a text in one pass, but for blanks around the arguments of
`clamp`. -/
theorem Arranges.plain (hasNames : scheme.HasNames) {site : Site} {text out : List Char}
    (arranges : scheme.Arranges site text out) (noSums : scheme.NoSums text) :
    withoutBlanks out = withoutBlanks (scheme.swapUnits text) ∧
      (site ≠ .arguments → hasClampFrom none text = false → out = scheme.swapUnits text) := by
  induction arranges with
  | swap => exact ⟨rfl, fun _ _ => rfl⟩
  | turn turns isRead => exact absurd ⟨turns, _, isRead, rfl⟩ (noSums.not_isSum hasNames)
  | @call site text body after call isText found ofBody ofAfter bodyHypothesis afterHypothesis =>
      have isFirst := Call.isFirst found
      obtain ⟨noSumsBody, noSumsAfter⟩ := noSums.of_isFirst hasNames isFirst
      obtain ⟨sameBody, equalBody⟩ := bodyHypothesis noSumsBody
      obtain ⟨sameAfter, equalAfter⟩ := afterHypothesis noSumsAfter
      rw [isFirst.swapUnits hasNames]
      constructor
      · have notBlank : isBlank '(' = false ∧ isBlank ')' = false := by decide
        simp only [withoutBlanks_append, withoutBlanks_cons notBlank.1,
          withoutBlanks_cons notBlank.2, sameBody, sameAfter]
      · intro _ noClamp
        have isCalc : call.function.site ≠ .arguments := by
          intro isArguments
          cases isFunction : call.function
          · rw [isFunction] at isArguments
            cases isArguments
          · rw [isFirst.hasClamp isFunction] at noClamp
            cases noClamp
        rw [isFirst.hasHead.text_eq, ← List.append_assoc] at noClamp
        have noClampBody := hasClampFrom_of_separator (by decide) noClamp
        have noClampAfter := hasClampFrom_of_separator (by decide) noClampBody
        rw [equalBody isCalc (hasClampFrom_of_append noClampBody).1,
          equalAfter (by decide) noClampAfter]
  | @arguments text parts split ofParts inductionHypothesis =>
      refine ⟨?_, fun isText => absurd rfl isText⟩
      have joined : [','].intercalate (splitTopLevel ',' text) = text :=
        intercalate_splitFrom ',' Scan.start text
      rw [← joined, swapUnits_comma hasNames, split]
      apply withoutBlanks_intercalate
      rw [List.map_map, List.map_map, List.map_map]
      refine List.map_congr_left fun part member => ?_
      have isPart : part.1 ∈ splitTopLevel ',' text := by
        rw [split]
        exact List.mem_map_of_mem member
      exact (inductionHypothesis part member (noSums.of_split hasNames isPart)).1.trans
        (withoutBlanks_swapUnits_trim hasNames part.1)

/-- Without sums to turn around, the conversion of a text is one pass over it. -/
theorem convertCalls_plain (noSums : scheme.turnsSums = false) (hasNames : scheme.HasNames)
    (text : List Char) :
    withoutBlanks (scheme.convertCalls true text) = withoutBlanks (scheme.swapUnits text) ∧
      (hasClampFrom none text = false →
        scheme.convertCalls true text = scheme.swapUnits text) := by
  obtain ⟨same, equal⟩ := (arranges_convertAt hasNames .whole text).plain hasNames (.inl noSums)
  exact ⟨same, equal (by decide)⟩

end Scheme

/-! ## Values -/

section Values

variable {scheme : Scheme}

/-- The free text of a value has a `clamp` in it. -/
def hasClamp (value : List Char) : Bool :=
  (spans value).any fun
    | .free text => hasClampFrom none text
    | .literal _ => false

theorem flatMap_mapFree_plain (noSums : scheme.turnsSums = false) (hasNames : scheme.HasNames)
    (spans : List Span) :
    withoutBlanks (spans.flatMap (Span.mapFree (scheme.convertCalls true))) =
      withoutBlanks (spans.flatMap (Span.mapFree scheme.swapUnits)) := by
  induction spans with
  | nil => rfl
  | cons span spans inductionHypothesis =>
      have ofSpan : withoutBlanks (span.mapFree (scheme.convertCalls true)) =
          withoutBlanks (span.mapFree scheme.swapUnits) := by
        cases span with
        | free text => exact (Scheme.convertCalls_plain noSums hasNames text).1
        | literal text => rfl
      rw [List.flatMap_cons, List.flatMap_cons, withoutBlanks_append, withoutBlanks_append, ofSpan,
        inductionHypothesis]

theorem mapFree_eq_of_hasClamp (noSums : scheme.turnsSums = false) (hasNames : scheme.HasNames)
    {value : List Char} (noClamp : hasClamp value = false) :
    mapFree (scheme.convertCalls true) value = mapFree scheme.swapUnits value := by
  refine List.flatMap_congr fun span member => ?_
  have ofSpan := List.any_eq_false.mp noClamp span member
  cases span with
  | free text =>
      exact (Scheme.convertCalls_plain noSums hasNames text).2 (by simpa using ofSpan)
  | literal text => rfl

end Values

end Value

open Value

namespace Converter

/-- The value with the unit of every quantity in free text swapped, in one pass. -/
def swapPlainly (converter : Converter) (value : String) : String :=
  String.ofList (mapFree converter.general.swapUnits value.toList)

/-- The units of the quantities that are swapped in one pass, in lower case and in order. -/
def swappedUnits (converter : Converter) (value : String) : List String :=
  ((spans value.toList).flatMap (Span.unitsOf converter.general.names)).map
    fun unit => String.ofList (lower unit)

theorem hasNames_general {units : UnitMap} (typographyUnits : Option UnitMap)
    (words : ∀ entry ∈ units, isWord entry.1) :
    (ofMaps units typographyUnits).general.HasNames :=
  Scheme.hasNames_of_lowerUnits rfl words

/-- By a map of words, every value is converted as if in one pass over its free text, but for
blanks around the arguments of `clamp`; and the quantities that are converted are those whose
units it is said to use.  It does not matter what the units stand for. -/
theorem convert_plain {units : UnitMap} (typographyUnits : Option UnitMap)
    (words : ∀ entry ∈ units, isWord entry.1) (value : String) :
    let converter := ofMaps units typographyUnits
    withoutBlanks (converter.convert value).toList =
        withoutBlanks (converter.swapPlainly value).toList ∧
      (hasClamp value.toList = false → converter.convert value = converter.swapPlainly value) ∧
        converter.swappedUnits value = converter.unitsIn value := by
  intro converter
  have hasNames : converter.general.HasNames := hasNames_general typographyUnits words
  refine ⟨?_, fun noClamp => ?_, ?_⟩
  · rw [convert, swapPlainly, String.toList_ofList, String.toList_ofList]
    exact flatMap_mapFree_plain rfl hasNames _
  · exact congrArg String.ofList (mapFree_eq_of_hasClamp rfl hasNames noClamp)
  · have sameUnits := (spanned_spansAfter none value.toList).unitsOf_blankLiteral hasNames
    exact congrArg (List.map fun unit => String.ofList (lower unit)) sameUnits.symm

/-- Units that stand for one another, in an unclosed call, an address and in capitals. -/
theorem convert_plain_unclosedValue :
    let units : UnitMap := [("vw", "vh"), ("VH", "cqh")]
    let value := "calc(1vw + CLAMP( 1VH ,2vw,(3px)) url(1vw) (-.5Vw"
    (∀ entry ∈ units, isWord entry.1) ∧
      withoutBlanks ((ofMaps units none).convert value).toList =
          withoutBlanks ((ofMaps units none).swapPlainly value).toList ∧
        (hasClamp value.toList = false →
          (ofMaps units none).convert value = (ofMaps units none).swapPlainly value) ∧
        (ofMaps units none).swappedUnits value = (ofMaps units none).unitsIn value := by
  have words : ∀ entry ∈ ([("vw", "vh"), ("VH", "cqh")] : UnitMap), isWord entry.1 := by decide
  exact ⟨words, convert_plain none words _⟩

end Converter

end ContainerPreview
