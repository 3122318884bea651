import ContainerPreview.Proofs.Media.Meaning
import Mathlib.Data.List.TakeDrop

/-!
# Comparisons stated by named bounds

The inside of a group is replaced by one or two insides that state its comparison by `min-`
and `max-`, or stays as it is.  What was spelled for a feature then says the same: a strict
comparison as a non-strict one, and a comparison between two values as two bounds.
-/

namespace ContainerPreview.Media

open Text Value

/-! ## Parsing a comparison -/

theorem isRelationChar_of_isValueChar {c : Char} (isValue : isValueChar c) :
    isRelationChar c = false := by
  obtain ⟨notLess, notGreater, notEquals⟩ := notRelation_of_isValueChar isValue
  simp [isRelationChar, notLess, notGreater, notEquals]

/-- Up to a text of relation signs there is no relation sign. -/
theorem span_value {left rest : List Char} (isValue : IsValue left)
    (begins : ∀ c ∈ rest.head?, isRelationChar c) :
    (left ++ rest).span (!isRelationChar ·) = (left, rest) := by
  have noSign : ∀ c ∈ left, (!isRelationChar c) = true := fun c member => by
    rw [isRelationChar_of_isValueChar (isValue c member)]
    rfl
  rw [List.span_eq_takeWhile_dropWhile, List.takeWhile_append_of_pos noSign,
    List.dropWhile_append_of_pos noSign]
  cases rest with
  | nil => rw [List.takeWhile_nil, List.dropWhile_nil, List.append_nil]
  | cons c rest => simp [begins c rfl]

theorem span_sign {sign rest : List Char} (isSign : ∀ c ∈ sign, isRelationChar c)
    (isValue : IsValue rest ∨ ∃ c ∈ rest.head?, isValueChar c) :
    (sign ++ rest).span isRelationChar = (sign, rest) := by
  rw [List.span_eq_takeWhile_dropWhile, List.takeWhile_append_of_pos isSign,
    List.dropWhile_append_of_pos isSign]
  cases rest with
  | nil => rw [List.takeWhile_nil, List.dropWhile_nil, List.append_nil]
  | cons c rest =>
      have isChar : isValueChar c := by
        rcases isValue with isValue | ⟨d, isHead, isChar⟩
        · exact isValue c List.mem_cons_self
        · obtain rfl : c = d := Option.some.inj isHead
          exact isChar
      simp [isRelationChar_of_isValueChar isChar]

/-- A relation sign of a comparison. -/
theorem relation_of_mem_signs {sign : List Char} {ascends : Bool} (isSign : sign ∈ signs ascends) :
    (∀ c ∈ sign, isRelationChar c) ∧ sign ≠ [] ∧
      ∃ relation, Relation.ofSign? sign = some relation ∧ relation.ascends = ascends := by
  cases ascends <;> simp only [signs, List.mem_cons, List.not_mem_nil, or_false] at isSign <;>
    rcases isSign with rfl | rfl
  · exact ⟨by decide, by decide, .greater, rfl, rfl⟩
  · exact ⟨by decide, by decide, .atLeast, rfl, rfl⟩
  · exact ⟨by decide, by decide, .less, rfl, rfl⟩
  · exact ⟨by decide, by decide, .atMost, rfl, rfl⟩

theorem head_sign {sign : List Char} {ascends : Bool} (isSign : sign ∈ signs ascends)
    (rest : List Char) : ∀ c ∈ (sign ++ rest).head?, isRelationChar c := by
  obtain ⟨areSigns, nonempty, -⟩ := relation_of_mem_signs isSign
  intro c isHead
  rw [List.head?_append_of_ne_nil _ nonempty] at isHead
  exact areSigns c (List.mem_of_head? isHead)

theorem parse?_value {inside : List Char} (isValue : IsValue inside) :
    Comparison.parse? inside = none := by
  have whole := span_value isValue (show ∀ c ∈ [].head?, isRelationChar c by simp)
  rw [List.append_nil] at whole
  have none : ([] : List Char).span isRelationChar = ([], []) := rfl
  simp only [Comparison.parse?, whole, none, Relation.ofSign?]

theorem parse?_comparison {left sign right : List Char} {ascends : Bool} (isLeft : IsValue left)
    (isSign : sign ∈ signs ascends) (isRight : IsValue right) :
    ∃ relation, relation.ascends = ascends ∧
      Comparison.parse? (left ++ (sign ++ right)) = Comparison.ofSides? left relation right := by
  obtain ⟨areSigns, -, relation, ofSign, sameDirection⟩ := relation_of_mem_signs isSign
  refine ⟨relation, sameDirection, ?_⟩
  have whole := span_value isRight (show ∀ c ∈ [].head?, isRelationChar c by simp)
  rw [List.append_nil] at whole
  simp only [Comparison.parse?, span_value isLeft (head_sign isSign right),
    span_sign areSigns (.inl isRight), whole, ofSign]
  rfl

theorem parse?_enclosing {left first middle second right : List Char} {ascends : Bool}
    (isLeft : IsValue left) (isFirst : first ∈ signs ascends) (isMiddle : IsValue middle)
    (nonempty : middle ≠ []) (isSecond : second ∈ signs ascends) (isRight : IsValue right) :
    ∃ relation relation', relation.ascends = ascends ∧ relation'.ascends = ascends ∧
      Comparison.parse? (left ++ (first ++ (middle ++ (second ++ right)))) =
        Comparison.enclosing? left relation middle relation' right := by
  obtain ⟨areFirst, -, relation, ofFirst, firstDirection⟩ := relation_of_mem_signs isFirst
  obtain ⟨areSecond, secondNonempty, relation', ofSecond, secondDirection⟩ :=
    relation_of_mem_signs isSecond
  refine ⟨relation, relation', firstDirection, secondDirection, ?_⟩
  obtain ⟨c, middle, rfl⟩ := List.exists_cons_of_ne_nil nonempty
  have noSign : right.any isRelationChar = false :=
    List.any_eq_false.mpr fun d member => by
      simp [isRelationChar_of_isValueChar (isRight d member)]
  have isMiddleHead : ∃ d ∈ (c :: middle ++ (second ++ right)).head?, isValueChar d :=
    ⟨c, rfl, isMiddle c List.mem_cons_self⟩
  simp only [Comparison.parse?, span_value isLeft (head_sign isFirst _),
    span_sign areFirst (.inr isMiddleHead), span_value isMiddle (head_sign isSecond right),
    span_sign areSecond (.inl isRight), ofFirst, ofSecond, noSign]
  simp [secondNonempty]

/-! ## Groups with named bounds -/

/-- The name of a bound on a feature. -/
def boundName (above : Bool) (name : List Char) : List Char :=
  (if above then "max-".toList else "min-".toList) ++ name

/-- A bound on a feature by its name. -/
def namedBound (above : Bool) (name value : List Char) : List Char :=
  boundName above name ++ ": ".toList ++ value

/-- The insides that take the place of the inside of a group. -/
def boundInsides (inside : List Char) : List (List Char) :=
  match Comparison.parse? inside with
  | some (.lowerBound name value) => [namedBound false name value]
  | some (.upperBound name value) => [namedBound true name value]
  | some (.between low name high) => [namedBound false name low, namedBound true name high]
  | none => [inside]

/-- Texts that features are spelled by, which together say what one feature says. -/
def SameMeaning (feature : Feature) (insides : List (List Char)) : Prop :=
  ∃ features, List.Forall₂ Feature.Spells features insides ∧
    ∀ {α : Type} [LE α] (assignment : Assignment α),
      HoldAll assignment features ↔ feature.Holds assignment

theorem SameMeaning.self {feature : Feature} {inside : List Char}
    (spells : feature.Spells inside) : SameMeaning feature [inside] :=
  ⟨[feature], .cons spells .nil, fun assignment => by simp [HoldAll]⟩

theorem isName_boundName {name : List Char} (isName : IsName name) (above : Bool) :
    IsName (boundName above name) := by
  cases above
  · exact ⟨List.forall_mem_append.mpr ⟨by decide, isName.1⟩, 'm', rfl, by decide⟩
  · exact ⟨List.forall_mem_append.mpr ⟨by decide, isName.1⟩, 'm', rfl, by decide⟩

theorem IsName.isTrimmed {name : List Char} (isName : IsName name) : IsTrimmed name :=
  ⟨fun c isHead => (class_of_isIdentifierChar (isName.1 c (List.mem_of_head? isHead))).2.2,
    fun c isLast => (class_of_isIdentifierChar (isName.1 c (List.mem_of_getLast? isLast))).2.2⟩

theorem normal_cons_space (value : List Char) : normal (' ' :: trim value) = normal value := by
  rw [normal, trim_cons_of_isBlank (by decide), trim_trim]
  rfl

theorem IsValue.trim {value : List Char} (isValue : IsValue value) : IsValue (trim value) := by
  obtain ⟨left, right, same, -, -⟩ := exists_append_trim value
  intro c member
  exact isValue c (same ▸ List.mem_append_left _ (List.mem_append_right _ member))

/-- A named bound is spelled as a plain feature, and holds if the bound does. -/
theorem spells_namedBound {name value : List Char} (isName : IsName name) (isValue : IsValue value)
    (above : Bool) :
    Feature.Spells (.plain (boundName above name) (normal value))
      (namedBound above name (trim value)) := by
  have isBoundName := isName_boundName isName above
  have same := trim_of_isTrimmed isBoundName.isTrimmed
  rw [← same, ← normal_cons_space, namedBound, List.append_assoc]
  rw [← same] at isBoundName
  exact .plain isBoundName (List.forall_mem_cons.mpr ⟨by decide, isValue.trim⟩)

section Meaning

variable {α : Type} [LE α]

theorem holds_namedBound (assignment : Assignment α) (above : Bool) (name value : List Char) :
    Feature.Holds assignment (.plain (boundName above name) value) ↔
      Feature.Holds assignment (.bound above name value) := by
  cases above with
  | true =>
      have isMax : dropStart? "max-".toList ("max-".toList ++ name) = some name :=
        dropStart?_eq_some_iff.mpr rfl
      have notMin : dropStart? "min-".toList ("max-".toList ++ name) = none := by
        simp [dropStart?]
      simp only [boundName, if_true, Feature.Holds, notMin, isMax, Feature.bound]
  | false =>
      have isMin : dropStart? "min-".toList ("min-".toList ++ name) = some name :=
        dropStart?_eq_some_iff.mpr rfl
      simp only [boundName, Bool.false_eq_true, if_false, Feature.Holds, isMin, Feature.bound]

end Meaning

/-- One named bound for a bound. -/
theorem sameMeaning_bound {name value : List Char} (isName : IsName name) (isValue : IsValue value)
    (above : Bool) :
    SameMeaning (.bound above name (normal value)) [namedBound above name (trim value)] :=
  ⟨_, .cons (spells_namedBound isName isValue above) .nil, fun assignment => by
    rw [HoldAll, List.forall_mem_singleton, holds_namedBound]⟩

/-- Two named bounds for a feature between two values. -/
theorem sameMeaning_between {low name high : List Char} (isName : IsName name)
    (isLow : IsValue low) (isHigh : IsValue high) :
    SameMeaning (.between (normal low) name (normal high))
      [namedBound false name (trim low), namedBound true name (trim high)] :=
  ⟨_, .cons (spells_namedBound isName isLow false)
      (.cons (spells_namedBound isName isHigh true) .nil), fun assignment => by
    rw [HoldAll, List.forall_mem_cons, List.forall_mem_singleton, holds_namedBound,
      holds_namedBound]
    rfl⟩

theorem not_isFeatureName_of_isNumeric {text : List Char} (isNumeric : IsNumeric text) :
    isFeatureName (trim text) = false := by
  obtain ⟨c, isHead, isNumber⟩ := isNumeric.2
  cases same : trim text with
  | nil => rfl
  | cons d rest =>
      rw [same] at isHead
      obtain rfl : d = c := Option.some.inj isHead
      have notAlpha : d.isAlpha = false := by
        cases isAlpha : d.isAlpha with
        | false => rfl
        | true =>
            rw [(class_of_isAlpha isAlpha).2] at isNumber
            cases isNumber
      simp [isFeatureName, notAlpha]

theorem nonempty_of_trim {text : List Char} {c : Char} (isHead : c ∈ (trim text).head?) :
    text.isEmpty = false := by
  cases text with
  | nil => cases isHead
  | cons => rfl

/-- Where a feature is spelled between two values, the group is left as it is, or its inside is
parsed as the lower and the upper bound. -/
theorem boundInsides_enclosing {left first middle second right : List Char} {ascends : Bool}
    (isLeft : IsNumeric left) (isFirst : first ∈ signs ascends) (isName : IsName (trim middle))
    (isSecond : second ∈ signs ascends) (isRight : IsNumeric right) :
    Comparison.parse? (left ++ (first ++ (middle ++ (second ++ right)))) = none ∨
      boundInsides (left ++ (first ++ (middle ++ (second ++ right)))) =
        [namedBound false (trim middle) (trim (if ascends then left else right)),
          namedBound true (trim middle) (trim (if ascends then right else left))] := by
  obtain ⟨name, isNameHead, -⟩ := isName.2
  obtain ⟨relation, relation', direction, direction', isParsed⟩ :=
    parse?_enclosing isLeft.1 isFirst isName.isValue
      (by simpa using nonempty_of_trim isNameHead) isSecond isRight.1
  obtain ⟨c, isLeftHead, -⟩ := isLeft.2
  obtain ⟨d, isRightHead, -⟩ := isRight.2
  cases isFeature : isFeatureName (trim middle) with
  | false =>
      refine .inl (isParsed.trans ?_)
      simp [Comparison.enclosing?, isFeature]
  | true =>
      right
      rw [boundInsides, isParsed]
      simp only [Comparison.enclosing?, isFeature, nonempty_of_trim isLeftHead,
        nonempty_of_trim isRightHead, direction, direction']
      cases ascends <;> rfl

/-- What stands for the inside of a group says what was spelled there. -/
theorem sameMeaning_boundInsides {feature : Feature} {inside : List Char}
    (spells : feature.Spells inside) : SameMeaning feature (boundInsides inside) := by
  have unchanged : Comparison.parse? inside = none → SameMeaning feature (boundInsides inside) :=
    fun noComparison => by
      rw [boundInsides, noComparison]
      exact .self spells
  cases spells with
  | flag isName => exact unchanged (parse?_value isName.isValue)
  | plain isName isValue =>
      exact unchanged (parse?_value (List.forall_mem_append.mpr
        ⟨isName.isValue, List.forall_mem_cons.mpr ⟨by decide, isValue⟩⟩))
  | @nameFirst left sign right ascends isName isSign isNumeric =>
      obtain ⟨relation, direction, isParsed⟩ :=
        parse?_comparison isName.isValue isSign isNumeric.1
      obtain ⟨c, isHead, -⟩ := isNumeric.2
      cases isFeature : isFeatureName (trim left) with
      | false =>
          refine unchanged (isParsed.trans ?_)
          simp [Comparison.ofSides?, isFeature, not_isFeatureName_of_isNumeric isNumeric]
      | true =>
          rw [boundInsides, isParsed]
          simp only [Comparison.ofSides?, isFeature, nonempty_of_trim isHead, direction]
          cases ascends <;> exact sameMeaning_bound isName isNumeric.1 _
  | @valueFirst left sign right ascends isNumeric isSign isName =>
      obtain ⟨relation, direction, isParsed⟩ :=
        parse?_comparison isNumeric.1 isSign isName.isValue
      obtain ⟨c, isHead, -⟩ := isNumeric.2
      have notLeft := not_isFeatureName_of_isNumeric isNumeric
      cases isFeature : isFeatureName (trim right) with
      | false =>
          refine unchanged (isParsed.trans ?_)
          simp [Comparison.ofSides?, isFeature, notLeft]
      | true =>
          rw [boundInsides, isParsed]
          simp only [Comparison.ofSides?, notLeft, isFeature, nonempty_of_trim isHead, direction]
          cases ascends <;> exact sameMeaning_bound isName isNumeric.1 _
  | ascending isLow isFirst isName isSecond isHigh =>
      rcases boundInsides_enclosing isLow isFirst isName isSecond isHigh with none | isBetween
      · exact unchanged none
      · rw [isBetween]
        exact sameMeaning_between isName isLow.1 isHigh.1
  | descending isHigh isFirst isName isSecond isLow =>
      rcases boundInsides_enclosing isHigh isFirst isName isSecond isLow with none | isBetween
      · exact unchanged none
      · rw [isBetween]
        exact sameMeaning_between isName isLow.1 isHigh.1

end ContainerPreview.Media
