import ContainerPreview.Proofs.Value.Kept
import ContainerPreview.Proofs.Value.Plain
import Mathlib.Data.List.Perm.Basic

/-!
# What typography conversion moves

Typography conversion turns fluid sums around and otherwise swaps units where they are.  So its
result has the characters of the plain single pass, in another order: a sum of a quantity and a
root-relative size changes the places of the two, and the unit of the size is then in lower
case.  Parentheses and commas keep their order, since a sum has none.
-/

namespace ContainerPreview

open Text

namespace Value

/-! ## Sizes in lower case -/

/-- The scheme that leaves everything as it is, but for the case of root-relative sizes. -/
def remScheme : Scheme :=
  { units := [("rem", "rem")], turnsSums := false }

/-- A text with the units of its root-relative sizes in lower case. -/
def lowerRems (text : List Char) : List Char :=
  remScheme.swapUnits text

theorem hasNames_remScheme : remScheme.HasNames :=
  isUnitName_remUnit

/-- No letter beyond ASCII matches one of `rem`. -/
theorem isAscii_of_rem {rem : List Char} (whole : dropStartFolded? remUnit rem = some []) :
    IsAscii rem := by
  have ofLetter : ∀ {s c : Char}, s.isLower → s ∉ ['i', 's', 'k'] → sameLetter s c →
      c.toNat < 128 := by
    intro s c isLower notExotic same
    rw [sameLetter, beq_iff_eq, foldCase_of_isLower isLower] at same
    rcases foldCase_cases c with exotic | beyond | ⟨isAscii, -⟩
    · have folds : ∀ c ∈ ['İ', 'ı', 'ſ', '\u212a'], foldCase c ∈ ['i', 's', 'k'] := by decide
      exact absurd (same ▸ folds c exotic) notExotic
    · have bounds := toNat_of_isLower isLower
      rw [← same] at beyond
      omega
    · exact isAscii
  obtain ⟨r, text, rfl, isR, dropped⟩ := exists_of_dropStartFolded?_cons whole
  obtain ⟨e, text, rfl, isE, dropped⟩ := exists_of_dropStartFolded?_cons dropped
  obtain ⟨m, text, rfl, isM, dropped⟩ := exists_of_dropStartFolded?_cons dropped
  cases dropped
  have isAscii : ∀ c ∈ [r, e, m], c.toNat < 128 := by
    simp only [List.forall_mem_cons]
    exact ⟨ofLetter (by decide) (by decide) isR, ofLetter (by decide) (by decide) isE,
      ofLetter (by decide) (by decide) isM, List.forall_mem_nil _⟩
  exact isAscii

theorem lowerRems_size {size rem : List Char} (isSize : IsQuantity [remUnit] size rem) :
    lowerRems (size ++ rem) = size ++ remUnit := by
  obtain ⟨name, isName, whole⟩ := isSize.isUnit
  rw [List.mem_singleton.mp isName] at whole
  have isLower := (lower_of_matches (by decide) whole (isAscii_of_rem whole)).1
  have isTarget : remScheme.targetOf rem = remUnit := by
    rw [Scheme.targetOf, isLower]
    rfl
  rw [lowerRems, Scheme.swapUnits_quantity hasNames_remScheme isSize, isTarget]

/-! ## Sums in one pass -/

namespace Scheme

variable {scheme : Scheme}

/-- Units are swapped in both operands of an addition, with blanks around and between them. -/
theorem swapUnits_addition (hasNames : scheme.HasNames) {left before after right : List Char}
    (leftBlank : ∀ c ∈ left, isBlank c) (beforeBlank : ∀ c ∈ before, isBlank c)
    (afterBlank : ∀ c ∈ after, isBlank c) (rightBlank : ∀ c ∈ right, isBlank c)
    (augend addend : List Char) :
    scheme.swapUnits (left ++ (augend ++ (before ++ '+' :: (after ++ addend))) ++ right) =
      left ++ (scheme.swapUnits augend ++ (before ++ '+' :: (after ++ scheme.swapUnits addend))) ++
        right := by
  have ofAugend := swapUnits_between hasNames (List.forall_mem_nil _) beforeBlank augend
  have ofAddend := swapUnits_between hasNames afterBlank (List.forall_mem_nil _) addend
  rw [List.nil_append, List.nil_append] at ofAugend
  rw [List.append_nil, List.append_nil] at ofAddend
  rw [swapUnits_between hasNames leftBlank rightBlank, ← List.append_assoc augend,
    swapUnits_plus hasNames, ofAugend, ofAddend]
  simp

theorem swapUnits_sum (hasNames : scheme.HasNames) (noRem : remUnit ∉ scheme.names)
    {sum : FluidSum} (isRead : sum.IsRead scheme.names) :
    scheme.swapUnits sum.text =
      sum.left ++ (sum.number ++ scheme.targetOf sum.unit ++
        (sum.beforePlus ++ '+' :: (sum.afterPlus ++ (sum.size ++ sum.rem)))) ++ sum.right := by
  have ofSize := swapUnits_of_unitsOf (unitsOf_size hasNames noRem isRead.size)
  rw [FluidSum.text, FluidSum.addend, swapUnits_addition hasNames isRead.left isRead.beforePlus
    isRead.afterPlus isRead.right, swapUnits_quantity hasNames isRead.quantity, ofSize]

end Scheme

/-! ## The same characters -/

/-- The characters of a text that are no blanks, with root-relative sizes in lower case. -/
def substance (text : List Char) : List Char :=
  withoutBlanks (lowerRems text)

theorem substance_separator (left : List Char) {c : Char} (separates : isSeparator c)
    (right : List Char) :
    substance (left ++ c :: right) = substance left ++ (withoutBlanks [c] ++ substance right) := by
  rw [substance, lowerRems, Scheme.swapUnits_separator hasNames_remScheme left separates,
    withoutBlanks_append, ← List.singleton_append, withoutBlanks_append]
  rfl

theorem substance_between {left right : List Char} (leftBlank : ∀ c ∈ left, isBlank c)
    (rightBlank : ∀ c ∈ right, isBlank c) (text : List Char) :
    substance (left ++ text ++ right) = substance text := by
  rw [substance, lowerRems, Scheme.swapUnits_between hasNames_remScheme leftBlank rightBlank,
    withoutBlanks_append, withoutBlanks_append, withoutBlanks_of_blanks leftBlank,
    withoutBlanks_of_blanks rightBlank, List.append_nil]
  rfl

theorem substance_addition {left before after right : List Char}
    (leftBlank : ∀ c ∈ left, isBlank c) (beforeBlank : ∀ c ∈ before, isBlank c)
    (afterBlank : ∀ c ∈ after, isBlank c) (rightBlank : ∀ c ∈ right, isBlank c)
    (augend addend : List Char) :
    substance (left ++ (augend ++ (before ++ '+' :: (after ++ addend))) ++ right) =
      substance augend ++ '+' :: substance addend := by
  rw [substance, lowerRems, Scheme.swapUnits_addition hasNames_remScheme leftBlank beforeBlank
    afterBlank rightBlank]
  simp only [withoutBlanks_append, withoutBlanks_cons (show isBlank '+' = false by decide),
    withoutBlanks_of_blanks leftBlank, withoutBlanks_of_blanks beforeBlank,
    withoutBlanks_of_blanks afterBlank, withoutBlanks_of_blanks rightBlank, List.nil_append,
    List.append_nil]
  rfl

section Sums

variable {scheme : Scheme}

theorem perm_turned (hasNames : scheme.HasNames) (noRem : remUnit ∉ scheme.names) {sum : FluidSum}
    (isRead : sum.IsRead scheme.names) :
    (substance (sum.turned scheme)).Perm (substance (scheme.swapUnits sum.text)) := by
  have space : ∀ c ∈ [' '], isBlank c := List.forall_mem_singleton.mpr (by decide)
  have ofTurned : substance (sum.turned scheme) = substance (sum.size ++ remUnit) ++
      '+' :: substance (sum.number ++ scheme.targetOf sum.unit) :=
    substance_addition isRead.left space space isRead.right _ _
  have isSize : IsQuantity [remUnit] sum.size remUnit :=
    ⟨isRead.size.isNumber, remUnit, List.mem_cons_self, by decide⟩
  have sameSize : substance (sum.size ++ remUnit) = substance (sum.size ++ sum.rem) := by
    rw [substance, substance, lowerRems_size isSize, lowerRems_size isRead.size]
  rw [ofTurned, Scheme.swapUnits_sum hasNames noRem isRead, substance_addition isRead.left
    isRead.beforePlus isRead.afterPlus isRead.right, sameSize]
  exact List.perm_middle.trans ((List.perm_append_comm.cons '+').trans List.perm_middle.symm)

/-- The substance of arguments that are trimmed and joined is that of the text that they were
split from. -/
theorem perm_joined (hasNames : scheme.HasNames) {parts : List (List Char × List Char)}
    (ofParts : ∀ part ∈ parts,
      (substance part.2).Perm (substance (scheme.swapUnits (trim part.1)))) :
    (substance ([',', ' '].intercalate (parts.map Prod.snd))).Perm
      (substance (scheme.swapUnits ([','].intercalate (parts.map Prod.fst)))) := by
  induction parts with
  | nil => rw [List.map_nil, List.map_nil, List.intercalate_nil, List.intercalate_nil,
      Scheme.swapUnits_nil]
  | cons part parts inductionHypothesis =>
      obtain ⟨here, later⟩ := List.forall_mem_cons.mp ofParts
      have ofPart : (substance part.2).Perm (substance (scheme.swapUnits part.1)) := by
        obtain ⟨left, right, same, leftBlank, rightBlank⟩ := exists_append_trim part.1
        rw [same, Scheme.swapUnits_between hasNames leftBlank rightBlank,
          substance_between leftBlank rightBlank]
        exact here
      cases parts with
      | nil => simpa using ofPart
      | cons second parts =>
          have ofSpace := substance_separator [] (c := ' ') (by decide)
          have isNil : substance [] = [] := by
            rw [substance, lowerRems, Scheme.swapUnits_nil]
            rfl
          rw [List.map_cons, List.map_cons, List.map_cons, List.map_cons, List.intercalate_cons_cons,
            List.intercalate_cons_cons, List.append_assoc, List.append_assoc, List.cons_append,
            List.cons_append, List.nil_append, List.cons_append, List.nil_append,
            Scheme.swapUnits_separator hasNames part.1 (by decide),
            substance_separator _ (by decide), substance_separator _ (by decide)]
          have ofRest := inductionHypothesis later
          rw [List.map_cons, List.map_cons] at ofRest
          refine ofPart.append (List.Perm.append_left _ ?_)
          rw [← List.nil_append (' ' :: _), ofSpace, isNil]
          exact ofRest

/-- Conversion changes the order of the characters of the single pass, but for blanks and for
the case of root-relative sizes. -/
theorem Scheme.Arranges.perm (hasNames : scheme.HasNames) (noRem : remUnit ∉ scheme.names)
    {site : Site} {text out : List Char} (arranges : scheme.Arranges site text out) :
    (substance out).Perm (substance (scheme.swapUnits text)) := by
  induction arranges with
  | swap => exact .rfl
  | turn turns isRead => exact perm_turned hasNames noRem isRead
  | @call site text body after call isText found ofBody ofAfter bodyHypothesis afterHypothesis =>
      rw [(Call.isFirst found).swapUnits hasNames, ← List.append_assoc, ← List.append_assoc,
        substance_separator _ (by decide), substance_separator _ (by decide),
        substance_separator _ (by decide), substance_separator _ (by decide)]
      exact List.Perm.append_left _ (List.Perm.append_left _
        (bodyHypothesis.append (List.Perm.append_left _ afterHypothesis)))
  | @arguments text parts split ofParts inductionHypothesis =>
      have joined : [','].intercalate (splitTopLevel ',' text) = text :=
        intercalate_splitFrom ',' Scan.start text
      rw [← joined, split]
      exact perm_joined hasNames inductionHypothesis

end Sums

/-! ## Values -/

section Values

variable {scheme : Scheme}

/-- What conversion makes of a stretch of a value: free text is arranged as a whole, and a
literal stays. -/
inductive Span.Arranges (scheme : Scheme) : Span → List Char → Prop where
  | free {text out : List Char} (arranges : scheme.Arranges .whole text out) :
      Arranges scheme (.free text) out
  | literal (text : List Char) : Arranges scheme (.literal text) text

/-- Sizes are lowered in a text that ends before a literal as in the literal and what follows. -/
theorem substance_literal {previous : Option Char} {left literal rest : List Char} {length : Nat}
    (alike : (lastAfter none left).any isNameChar = previous.any isNameChar)
    (found : literalLength? previous (literal ++ rest) = some length) :
    substance (left ++ (literal ++ rest)) = substance left ++ substance (literal ++ rest) := by
  cases isText : literal ++ rest with
  | nil =>
      rw [isText] at found
      cases found
  | cons c text =>
      rw [isText] at found
      obtain ⟨notNumber, notName⟩ := class_of_literalLength? found
      have apart : Apart (lastAfter none left) (c :: text) := by
        rintro x isLast y isHead
        obtain rfl : c = y := Option.some.inj isHead
        rcases notName with notName | outside
        · exact .inr notName
        · rw [← alike, Option.mem_def.mp isLast] at outside
          exact .inl outside
      rw [substance, lowerRems, Scheme.swapUnits, pieces, piecesAfter_cut hasNames_remScheme none
        (beginsNoNumber_cons notNumber text) apart, List.flatMap_append, withoutBlanks_append]
      rfl

/-- The parts of a value have their substance apart. -/
theorem Spanned.substance {convert : List Char → List Char}
    (alike : ∀ text : List Char, EndsAlike text (convert text)) {previous : Option Char}
    {text : List Char} {spans : List Span} (spanned : Spanned previous text spans) :
    Value.substance (spans.flatMap (Span.mapFree convert)) =
      spans.flatMap fun span => Value.substance (span.mapFree convert) := by
  have isNil : Value.substance [] = [] := by
    rw [Value.substance, lowerRems, Scheme.swapUnits_nil]
    rfl
  induction spanned with
  | nil => exact isNil
  | @literal previous literal rest spans found later inductionHypothesis =>
      obtain ⟨-, ⟨inside, last, isLiteral, separates, -⟩, -⟩ := literalLength?_spec rfl found
      rw [List.take_left] at isLiteral
      have ofLast := substance_separator inside separates []
      rw [isNil, List.append_nil] at ofLast
      rw [List.flatMap_cons, List.flatMap_cons, ← inductionHypothesis, Span.mapFree, isLiteral,
        ofLast, List.append_assoc, List.singleton_append, substance_separator inside separates,
        List.append_assoc]
  | @free previous free rest spans nonempty quiet ends later inductionHypothesis =>
      rw [List.flatMap_cons, List.flatMap_cons, ← inductionHypothesis, Span.mapFree]
      cases later with
      | nil => rw [List.flatMap_nil, isNil, List.append_nil, List.append_nil]
      | @literal _ literal rest spans found later =>
          have ofLiteral := (literalLength?_spec rfl found).2.2
          rw [List.take_left] at ofLiteral
          apply substance_literal _ (ofLiteral _)
          rw [lastAfter_eq_getLast? previous nonempty, ← lastAfter_eq_getLast? none nonempty]
          exact (alike free).lastAfter rfl
      | free nonempty' quiet' _ _ => exact absurd ends (not_endsBefore nonempty' quiet')

theorem arranges_mapFree (hasNames : scheme.HasNames) (span : Span) :
    span.Arranges scheme (span.mapFree (scheme.convertCalls true)) := by
  cases span with
  | free text => exact .free (Scheme.arranges_convertAt hasNames .whole text)
  | literal text => exact .literal text

theorem Span.Arranges.skeleton_eq (hasWords : scheme.HasWords) {span : Span} {out : List Char}
    (arranges : span.Arranges scheme out) : skeleton out = skeleton span.text := by
  cases arranges with
  | free arranges => exact arranges.skeleton_eq hasWords
  | literal => rfl

theorem Span.Arranges.perm (hasNames : scheme.HasNames) (noRem : remUnit ∉ scheme.names)
    {span : Span} {out : List Char} (arranges : span.Arranges scheme out) :
    (Value.substance out).Perm (Value.substance (span.mapFree scheme.swapUnits)) := by
  cases arranges with
  | free arranges => exact arranges.perm hasNames noRem
  | literal => exact .rfl

theorem skeleton_convert (hasWords : scheme.HasWords) (value : List Char) :
    skeleton (scheme.convert value) = skeleton value := by
  have isValue : (spans value).flatMap Span.text = value := flatMap_text_spansAfter none value
  nth_rewrite 2 [← isValue]
  rw [Scheme.convert, mapFree]
  induction spans value with
  | nil => rfl
  | cons span spans inductionHypothesis =>
      rw [List.flatMap_cons, List.flatMap_cons, skeleton_append, skeleton_append,
        inductionHypothesis, (arranges_mapFree hasWords.hasNames span).skeleton_eq hasWords]

theorem perm_convert (hasWords : scheme.HasWords) (noRem : remUnit ∉ scheme.names)
    (value : List Char) :
    (substance (scheme.convert value)).Perm (substance (mapFree scheme.swapUnits value)) := by
  have spanned := spanned_spansAfter none value
  have ofConvert : ∀ text : List Char, EndsAlike text (scheme.convertCalls true text) := fun text =>
    ((Scheme.arranges_convertAt hasWords.hasNames .whole text).alike hasWords (by decide)).2
  have ofSwap : ∀ text : List Char, EndsAlike text (scheme.swapUnits text) := fun text =>
    (alike_swapUnits hasWords text).2
  rw [Scheme.convert, mapFree, mapFree, spans, spanned.substance ofConvert,
    spanned.substance ofSwap]
  exact List.Perm.flatMap_left _ fun span _ =>
    (arranges_mapFree hasWords.hasNames span).perm hasWords.hasNames noRem

end Values

end Value

open Value

namespace Converter

/-- By a typography map of words for words without `rem`, whichever of the given maps it is,
every value keeps its parentheses and commas; its conversion has the characters of the plain
single pass, but for blanks and for the case of root-relative sizes; and nothing is moved but the
operands of fluid sums, where a stretch of free text, a body of `calc` or an argument of `clamp`
is one. -/
theorem convertTypography_rearranges {units typography : UnitMap}
    {typographyUnits : Option UnitMap}
    (isMap : (ofMaps units typographyUnits).typographyUnits = typography.lowerUnits)
    (words : ∀ entry ∈ typography, isWord entry.1 ∧ isWord entry.2)
    (noRem : ∀ entry ∈ typography, lower entry.1.toList ≠ remUnit) (value : String) :
    let scheme := (ofMaps units typographyUnits).typography
    let out := ((ofMaps units typographyUnits).convertTypography value).toList
    skeleton out = skeleton value.toList ∧
      (substance out).Perm (substance (mapFree scheme.swapUnits value.toList)) ∧
        ∃ converted, List.Forall₂ (Span.Arranges scheme) (spans value.toList) converted ∧
          out = converted.flatten := by
  intro scheme out
  have hasWords : scheme.HasWords := Scheme.hasWords_of_lowerUnits isMap words
  have notUnit : remUnit ∉ scheme.names := by
    intro isUnit
    obtain ⟨entry, member, same⟩ := (Scheme.mem_names_of_lowerUnits isMap).mp isUnit
    exact noRem entry member same
  have isConverted : out = scheme.convert value.toList := String.toList_ofList
  rw [isConverted]
  refine ⟨skeleton_convert hasWords value.toList,
    perm_convert hasWords notUnit value.toList,
    (spans value.toList).map (Span.mapFree (scheme.convertCalls true)), ?_, ?_⟩
  · rw [List.forall₂_map_right_iff, List.forall₂_same]
    exact fun span _ => arranges_mapFree hasWords.hasNames span
  · rw [Scheme.convert, mapFree, List.flatMap_def]

/-- A sum in capitals in a body and in an argument, a part that is no sum, and a literal. -/
theorem convertTypography_rearranges_nestedValue :
    let typography : UnitMap := [("vw", "CQW"), ("VMIN", "cqi")]
    let scheme := (ofMaps [] (some typography)).typography
    let value := "CALC( 1VW+2REM ) url(1vw + 1rem) clamp( 1px ,-2vmin + .5rem, (3vw + 1rem) "
    let out := ((ofMaps [] (some typography)).convertTypography value).toList
    ((ofMaps [] (some typography)).typographyUnits = typography.lowerUnits ∧
      (∀ entry ∈ typography, isWord entry.1 ∧ isWord entry.2) ∧
        ∀ entry ∈ typography, lower entry.1.toList ≠ remUnit) ∧
    skeleton out = skeleton value.toList ∧
      (substance out).Perm (substance (mapFree scheme.swapUnits value.toList)) ∧
        ∃ converted, List.Forall₂ (Span.Arranges scheme) (spans value.toList) converted ∧
          out = converted.flatten := by
  have isMap : (ofMaps [] (some [("vw", "CQW"), ("VMIN", "cqi")])).typographyUnits =
      UnitMap.lowerUnits [("vw", "CQW"), ("VMIN", "cqi")] := rfl
  have words : ∀ entry ∈ ([("vw", "CQW"), ("VMIN", "cqi")] : UnitMap),
      isWord entry.1 ∧ isWord entry.2 := by decide
  have noRem : ∀ entry ∈ ([("vw", "CQW"), ("VMIN", "cqi")] : UnitMap),
      lower entry.1.toList ≠ remUnit := by decide
  exact ⟨⟨isMap, words, noRem⟩, convertTypography_rearranges isMap words noRem _⟩

end Converter

end ContainerPreview
