import ContainerPreview.Proofs.Value.Literals
import ContainerPreview.Proofs.Value.Rearranged

/-!
# Detection foretells conversion

A value uses a unit exactly if conversion changes it in more than its blanks.  Where no unit is
in use nothing is swapped or turned around.  Where one is, the letters tell: the container units
have a letter that the viewport units lack, and conversion moves letters but loses none, so that
it adds this letter once for each quantity.
-/

namespace ContainerPreview

open Text

namespace Value

section Counts

variable {scheme : Scheme} {letter : Char}

/-- Swapping units adds a letter as often as their targets have it more often. -/
theorem count_swapUnits {more : Nat} {text : List Char}
    (gains : ∀ unit ∈ unitsOf scheme.names text,
      (scheme.targetOf unit).count letter = unit.count letter + more) :
    (scheme.swapUnits text).count letter =
      text.count letter + more * (unitsOf scheme.names text).length := by
  have ofPieces : ∀ pieces : List Piece, (∀ unit ∈ pieces.filterMap Piece.unit?,
      (scheme.targetOf unit).count letter = unit.count letter + more) →
        (pieces.flatMap scheme.convertPiece).count letter =
          (pieces.flatMap Piece.text).count letter +
            more * (pieces.filterMap Piece.unit?).length := by
    intro pieces gains
    induction pieces with
    | nil => rfl
    | cons piece pieces inductionHypothesis =>
        cases piece with
        | plain c =>
            rw [List.filterMap_cons_none rfl] at gains ⊢
            rw [List.flatMap_cons, List.flatMap_cons, List.count_append, List.count_append,
              inductionHypothesis gains, Nat.add_assoc]
            rfl
        | quantity number unit =>
            have isUnit : (Piece.quantity number unit).unit? = some unit := rfl
            rw [List.filterMap_cons_some isUnit] at gains ⊢
            obtain ⟨here, later⟩ := List.forall_mem_cons.mp gains
            rw [List.flatMap_cons, List.flatMap_cons, List.count_append, List.count_append,
              inductionHypothesis later, Scheme.convertPiece, Piece.text, List.count_append,
              List.count_append, here, List.length_cons, Nat.mul_succ]
            omega
  have isText := flatMap_text_piecesAfter scheme.names none text
  nth_rewrite 2 [← isText]
  exact ofPieces (pieces scheme.names text) gains

/-- A letter that is its own lower case is in a word if it is in the word in lower case. -/
theorem count_eq_zero_of_lower (isLower : lowerChar letter = [letter]) {word : List Char}
    (notMember : letter ∉ lower word) : word.count letter = 0 := by
  apply List.count_eq_zero_of_not_mem
  intro member
  apply notMember
  exact List.mem_flatMap.mpr ⟨letter, member, by rw [isLower]; exact List.mem_cons_self⟩

/-- Sizes in lower case have a letter as often, if it is none of theirs. -/
theorem count_lowerRems (isLower : lowerChar letter = [letter]) (notInRem : letter ∉ remUnit)
    (text : List Char) : (lowerRems text).count letter = text.count letter := by
  have kept : ∀ unit ∈ unitsOf remScheme.names text,
      (remScheme.targetOf unit).count letter = unit.count letter + 0 := by
    intro unit member
    obtain ⟨name, isName, whole⟩ := (isUnit_of_mem_unitsOf hasNames_remScheme member).1
    obtain rfl : name = remUnit := List.mem_singleton.mp isName
    have isRem := (lower_of_matches (by decide) whole (isAscii_of_rem whole)).1
    have isTarget : remScheme.targetOf unit = remUnit := by
      rw [Scheme.targetOf, isRem]
      rfl
    rw [isTarget, List.count_eq_zero_of_not_mem notInRem,
      count_eq_zero_of_lower isLower (by rwa [isRem])]
  have counted := count_swapUnits kept
  rwa [Nat.zero_mul, Nat.add_zero] at counted

theorem count_withoutBlanks (notBlank : isBlank letter = false) (text : List Char) :
    (withoutBlanks text).count letter = text.count letter :=
  List.count_filter (by simp [notBlank])

/-- A letter by which the targets of a scheme are told from its units. -/
structure Scheme.IsMark (scheme : Scheme) (letter : Char) : Prop where
  isLower : lowerChar letter = [letter]
  notBlank : isBlank letter = false
  notInRem : letter ∉ remUnit
  notInUnit {name : List Char} (isUnit : name ∈ scheme.names) : letter ∉ name
  inTarget {name : List Char} (isUnit : name ∈ scheme.names) :
    (scheme.targetOf name).count letter = 1

theorem Scheme.IsMark.count_targetOf (isMark : scheme.IsMark letter) (hasNames : scheme.HasNames)
    {unit : List Char} (isUnit : ∃ name ∈ scheme.names, dropStartFolded? name unit = some [])
    (ascii : IsAscii unit) : (scheme.targetOf unit).count letter = unit.count letter + 1 := by
  obtain ⟨isName, sameTarget⟩ := targetOf_lower hasNames isUnit ascii
  rw [← sameTarget, isMark.inTarget isName,
    count_eq_zero_of_lower isMark.isLower (isMark.notInUnit isName)]

/-- Conversion adds a mark once for each quantity. -/
theorem count_convert (isMark : scheme.IsMark letter) (hasWords : scheme.HasWords)
    (noRem : remUnit ∉ scheme.names) {value : List Char} (ascii : IsAscii value) :
    (scheme.convert value).count letter =
      value.count letter + (unitsOf scheme.names (blankLiterals value)).length := by
  have ofSubstance : ∀ text, (substance text).count letter = text.count letter := fun text => by
    rw [substance, count_withoutBlanks isMark.notBlank,
      count_lowerRems isMark.isLower isMark.notInRem]
  have ofSpans : ∀ spans : List Span, IsAscii (spans.flatMap Span.text) →
      (spans.flatMap (Span.mapFree scheme.swapUnits)).count letter =
        (spans.flatMap Span.text).count letter +
          (spans.flatMap (Span.unitsOf scheme.names)).length := by
    intro spans ascii
    induction spans with
    | nil => rfl
    | cons span spans inductionHypothesis =>
        obtain ⟨asciiSpan, asciiRest⟩ := List.forall_mem_append.mp ascii
        have ofSpan : (span.mapFree scheme.swapUnits).count letter =
            span.text.count letter + (span.unitsOf scheme.names).length := by
          cases span with
          | literal text => rfl
          | free text =>
              have gains : ∀ unit ∈ unitsOf scheme.names text,
                  (scheme.targetOf unit).count letter = unit.count letter + 1 := by
                intro unit member
                obtain ⟨isUnit, inText⟩ := isUnit_of_mem_unitsOf hasWords.hasNames member
                exact isMark.count_targetOf hasWords.hasNames isUnit fun c inUnit =>
                  asciiSpan c (inText inUnit)
              have counted := count_swapUnits gains
              rwa [Nat.one_mul] at counted
        rw [List.flatMap_cons, List.flatMap_cons, List.flatMap_cons, List.count_append,
          List.count_append, List.length_append, ofSpan, inductionHypothesis asciiRest]
        omega
  have isValue : (spans value).flatMap Span.text = value := flatMap_text_spansAfter none value
  have counted := ofSpans (spans value) (by rwa [isValue])
  rw [isValue] at counted
  rw [blankLiterals, spans, (spanned_spansAfter none value).unitsOf_blankLiteral hasWords.hasNames,
    ← ofSubstance, (perm_convert hasWords noRem value).count_eq, ofSubstance]
  exact counted

end Counts

/-! ## Values that conversion leaves alone -/

section Left

variable {scheme : Scheme}

/-- A value without units keeps all but blanks around the arguments of `clamp`. -/
theorem withoutBlanks_convert_of_unitsOf (hasNames : scheme.HasNames) {value : List Char}
    (noUnits : unitsOf scheme.names (blankLiterals value) = []) :
    withoutBlanks (scheme.convert value) = withoutBlanks value := by
  rw [blankLiterals, spans, (spanned_spansAfter none value).unitsOf_blankLiteral hasNames,
    List.flatMap_eq_nil_iff] at noUnits
  have isValue : (spans value).flatMap Span.text = value := flatMap_text_spansAfter none value
  nth_rewrite 2 [← isValue]
  rw [Scheme.convert, mapFree, withoutBlanks, withoutBlanks, List.filter_flatMap,
    List.filter_flatMap]
  refine List.flatMap_congr fun span member => ?_
  cases span with
  | literal text => rfl
  | free text =>
      have noUnit : unitsOf scheme.names text = [] := noUnits _ member
      have arranges := Scheme.arranges_convertAt hasNames .whole text
      have same := (arranges.plain hasNames (.inr noUnit)).1
      rwa [Scheme.swapUnits_of_unitsOf noUnit] at same

/-- If the targets of a scheme have a mark, a value keeps all but its blanks exactly if it uses no
unit. -/
theorem withoutBlanks_convert_iff {letter : Char} (isMark : scheme.IsMark letter)
    (hasWords : scheme.HasWords) (noRem : remUnit ∉ scheme.names) {value : List Char}
    (ascii : IsAscii value) :
    withoutBlanks (scheme.convert value) = withoutBlanks value ↔
      unitsOf scheme.names (blankLiterals value) = [] := by
  constructor
  · intro same
    have counted := count_convert isMark hasWords noRem ascii
    rw [← count_withoutBlanks isMark.notBlank, same, count_withoutBlanks isMark.notBlank] at counted
    exact List.length_eq_zero_iff.mp (by omega)
  · exact withoutBlanks_convert_of_unitsOf hasWords.hasNames

end Left

end Value

open Value

namespace Converter

theorem isMark_standard (property : String) : (standard.schemeFor property).IsMark 'q' := by
  rw [schemeFor]
  split <;> constructor <;> decide

/-- With the maps that are used by default, conversion keeps all but the blanks of a value in
ASCII exactly if no viewport unit is detected in it. -/
theorem withoutBlanks_convertFor_standard (property : String) {value : String}
    (ascii : IsAscii value.toList) :
    withoutBlanks (standard.convertFor property value).toList = withoutBlanks value.toList ↔
      standard.hasUnits value = false := by
  obtain ⟨settles, sameNames⟩ := settles_schemeFor_standard property
  rw [hasUnits_eq_false_iff settles.hasNames sameNames, convertFor, String.toList_ofList]
  exact withoutBlanks_convert_iff (isMark_standard property) settles.toHasWords settles.noRem ascii

end Converter

end ContainerPreview
