import ContainerPreview.Proofs.Media.Innermost
import ContainerPreview.Proofs.Media.Screen
import ContainerPreview.Proofs.Text.Group

/-!
# Comparisons stated by named bounds

An innermost group that has been bounded is settled: bounding it once more changes nothing,
also after its blanks have been squeezed.  A named bound has no relation sign, since name and
value come from outside the signs of the comparison; and squeezing neither makes nor breaks a
comparison.
-/

namespace ContainerPreview.Media

open Text Value

/-! ## The parts of a comparison -/

/-- The feature and the values of a comparison. -/
def Comparison.parts : Comparison → List (List Char)
  | .lowerBound feature value | .upperBound feature value => [feature, value]
  | .between low feature high => [low, feature, high]

/-- The characters of a part are those of the text that come from outside its relation
signs. -/
def IsPartOf (text part : List Char) : Prop :=
  ∀ c ∈ part, c ∈ text ∧ isRelationChar c = false

theorem isPartOf_trim_takeWhile {text rest : List Char} (within : rest.Sublist text) :
    IsPartOf text (trim (rest.takeWhile (!isRelationChar ·))) := by
  intro c member
  have inFront := mem_of_mem_trim member
  refine ⟨within.mem ((List.takeWhile_sublist _).mem inFront), ?_⟩
  simpa using List.mem_takeWhile_imp inFront

theorem isPartOf_of_ofSides? {text left right : List Char} {relation : Relation}
    {comparison : Comparison} (isLeft : IsPartOf text (trim left))
    (isRight : IsPartOf text (trim right))
    (states : Comparison.ofSides? left relation right = some comparison) :
    ∀ part ∈ comparison.parts, IsPartOf text part := by
  have isPair : ∀ {first second}, IsPartOf text first → IsPartOf text second →
      ∀ part ∈ [first, second], IsPartOf text part := fun isFirst isSecond =>
    List.forall_mem_cons.mpr ⟨isFirst, List.forall_mem_singleton.mpr isSecond⟩
  unfold Comparison.ofSides? at states
  split at states
  · cases states
    split
    · exact isPair isLeft isRight
    · exact isPair isLeft isRight
  · split at states
    · cases states
      split
      · exact isPair isRight isLeft
      · exact isPair isRight isLeft
    · cases states

theorem isPartOf_of_enclosing? {text left middle right : List Char} {first second : Relation}
    {comparison : Comparison} (isLeft : IsPartOf text (trim left))
    (isMiddle : IsPartOf text (trim middle)) (isRight : IsPartOf text (trim right))
    (states : Comparison.enclosing? left first middle second right = some comparison) :
    ∀ part ∈ comparison.parts, IsPartOf text part := by
  have isTriple : ∀ {first second third}, IsPartOf text first → IsPartOf text second →
      IsPartOf text third → ∀ part ∈ [first, second, third], IsPartOf text part :=
    fun isFirst isSecond isThird => List.forall_mem_cons.mpr
      ⟨isFirst, List.forall_mem_cons.mpr ⟨isSecond, List.forall_mem_singleton.mpr isThird⟩⟩
  unfold Comparison.enclosing? at states
  split at states
  · cases states
    split
    · exact isTriple isLeft isMiddle isRight
    · exact isTriple isRight isMiddle isLeft
  · cases states

theorem isPartOf_of_parse? {text : List Char} {comparison : Comparison}
    (states : Comparison.parse? text = some comparison) :
    ∀ part ∈ comparison.parts, IsPartOf text part := by
  simp only [Comparison.parse?, List.span_eq_takeWhile_dropWhile] at states
  have afterLeft : (text.dropWhile (!isRelationChar ·)).Sublist text := List.dropWhile_sublist _
  have afterFirst := (List.dropWhile_sublist isRelationChar).trans afterLeft
  have afterMiddle := (List.dropWhile_sublist (!isRelationChar ·)).trans afterFirst
  have afterSecond := (List.dropWhile_sublist isRelationChar).trans afterMiddle
  split at states
  · cases states
  · split at states
    · exact isPartOf_of_ofSides? (isPartOf_trim_takeWhile (List.Sublist.refl text))
        (isPartOf_trim_takeWhile afterFirst) states
    · split at states
      · cases states
      · rename_i noSign
        split at states
        · cases states
        · refine isPartOf_of_enclosing? (isPartOf_trim_takeWhile (List.Sublist.refl text))
            (isPartOf_trim_takeWhile afterFirst) (fun c member => ?_) states
          have inEnd := mem_of_mem_trim member
          have notSign := List.any_eq_false.mp (by simpa using noSign) c inEnd
          exact ⟨afterSecond.mem inEnd, by simpa using notSign⟩

/-- A text without a relation sign states no comparison. -/
theorem parse?_of_noSign {text : List Char} (noSign : ∀ c ∈ text, isRelationChar c = false) :
    Comparison.parse? text = none := by
  have noRest : text.dropWhile (!isRelationChar ·) = [] := by
    rw [List.dropWhile_eq_nil_iff]
    exact fun c member => by rw [noSign c member]; rfl
  simp [Comparison.parse?, List.span_eq_takeWhile_dropWhile, noRest, Relation.ofSign?]

/-! ## Insides that take the place of an inside -/

theorem isPartOf_namedBound {inside name value : List Char} (isName : IsPartOf inside name)
    (isValue : IsPartOf inside value) (above : Bool) {c : Char}
    (member : c ∈ namedBound above name value) :
    (c ∈ inside ∨ isUngrouped c) ∧ isRelationChar c = false := by
  have ofWord : ∀ c ∈ "max-".toList ++ "min-".toList ++ ": ".toList,
      isUngrouped c ∧ isRelationChar c = false := by decide
  have isEither : c ∈ "max-".toList ++ "min-".toList ++ ": ".toList ∨ c ∈ name ∨ c ∈ value := by
    simp only [namedBound, boundName, List.mem_append] at member ⊢
    cases above <;> simp_all <;> tauto
  rcases isEither with inWord | inName | inValue
  · exact ⟨.inr (ofWord c inWord).1, (ofWord c inWord).2⟩
  · exact ⟨.inl (isName c inName).1, (isName c inName).2⟩
  · exact ⟨.inl (isValue c inValue).1, (isValue c inValue).2⟩

/-- An inside that takes the place of another either is that one, which states no comparison, or has
no relation sign. -/
theorem mem_boundInsides {inside bound : List Char} (isBound : bound ∈ boundInsides inside) :
    (bound = inside ∧ Comparison.parse? inside = none) ∨
      ∀ c ∈ bound, (c ∈ inside ∨ isUngrouped c) ∧ isRelationChar c = false := by
  unfold boundInsides at isBound
  cases states : Comparison.parse? inside with
  | none =>
      rw [states] at isBound
      exact .inl ⟨List.mem_singleton.mp isBound, rfl⟩
  | some comparison =>
      have areParts := isPartOf_of_parse? states
      rw [states] at isBound
      right
      cases comparison with
      | lowerBound name value =>
          obtain rfl := List.mem_singleton.mp isBound
          exact fun c => isPartOf_namedBound (areParts name (by simp [Comparison.parts]))
            (areParts value (by simp [Comparison.parts])) false
      | upperBound name value =>
          obtain rfl := List.mem_singleton.mp isBound
          exact fun c => isPartOf_namedBound (areParts name (by simp [Comparison.parts]))
            (areParts value (by simp [Comparison.parts])) true
      | between low name high =>
          have isLow := areParts low (by simp [Comparison.parts])
          have isName := areParts name (by simp [Comparison.parts])
          have isHigh := areParts high (by simp [Comparison.parts])
          rcases List.mem_cons.mp isBound with rfl | isBound
          · exact fun c => isPartOf_namedBound isName isLow false
          · obtain rfl := List.mem_singleton.mp isBound
            exact fun c => isPartOf_namedBound isName isHigh true

theorem isUngrouped_of_mem_boundInsides {inside bound : List Char}
    (noGroup : ∀ c ∈ inside, isUngrouped c) (isBound : bound ∈ boundInsides inside) :
    ∀ c ∈ bound, isUngrouped c := by
  rcases mem_boundInsides isBound with ⟨rfl, -⟩ | areParts
  · exact noGroup
  · exact fun c member => (areParts c member).1.elim (noGroup c) id

theorem innermost_boundGroup {inside : List Char} (noGroup : ∀ c ∈ inside, isUngrouped c)
    (rest : List Char) :
    innermost (boundGroup inside ++ rest) = boundInsides inside ++ innermost rest := by
  have noGroups : ∀ bound ∈ boundInsides inside, ∀ c ∈ bound, isUngrouped c :=
    fun bound isBound => isUngrouped_of_mem_boundInsides noGroup isBound
  rcases boundGroup_eq inside with ⟨bound, areBounds, isGroup⟩ | ⟨low, high, areBounds, isGroup, -⟩
  · rw [areBounds, List.forall_mem_singleton] at noGroups
    rw [areBounds, isGroup]
    simpa [innermost] using innermostFrom_group none noGroups rest
  · rw [areBounds, List.forall_mem_cons, List.forall_mem_singleton] at noGroups
    have isLow :=
      innermostFrom_group none noGroups.1 (" and ".toList ++ '(' :: (high ++ ')' :: rest))
    have isBetween : innermost (" and ".toList ++ '(' :: (high ++ ')' :: rest)) =
        innermost ('(' :: (high ++ ')' :: rest)) :=
      innermostFrom_ungrouped (show ∀ c ∈ " and ".toList, isUngrouped c by decide) none _
    have isHigh := innermostFrom_group none noGroups.2 rest
    rw [areBounds, isGroup]
    rw [isBetween, innermost, isHigh] at isLow
    simpa [innermost] using isLow

/-- Bounding the comparisons of a text puts other insides in place of those of its innermost
groups. -/
theorem innermost_boundComparisons (text : List Char) :
    innermost (boundComparisons text) = (innermost text).flatMap boundInsides := by
  induction text using groupInduction with
  | nil =>
      rw [boundComparisons, Joined.mapGroups_nil]
      rfl
  | group inside after noGroup inductionHypothesis =>
      rw [boundComparisons, Joined.mapGroups_group boundGroup noGroup, innermost_boundGroup noGroup,
        innermost, innermost, innermostFrom_group none noGroup, List.flatMap_cons]
      exact congrArg (boundInsides inside ++ ·) inductionHypothesis
  | opening rest reopens inductionHypothesis =>
      rw [boundComparisons, mapGroups_opening boundGroup reopens, innermost, innermost,
        innermostFrom_opening, innermostFrom_opening, reopens.innermostFrom]
      exact (reopens.boundComparisons.innermostFrom _).trans inductionHypothesis
  | other c rest notOpening inductionHypothesis =>
      rw [boundComparisons, mapGroups_cons boundGroup notOpening, innermost_cons notOpening,
        innermost_cons notOpening]
      exact inductionHypothesis

/-! ## Squeezed comparisons -/

theorem isEmpty_squeeze (text : List Char) : (squeeze text).isEmpty = text.isEmpty := by
  cases text with
  | nil => rfl
  | cons c text => simp [squeeze_ne_nil]

theorem mem_squeeze_of_isBlank {text : List Char} {c : Char} (member : c ∈ text)
    (blank : isBlank c) : ' ' ∈ squeeze text := by
  induction text with
  | nil => cases member
  | cons d text inductionHypothesis =>
      simp only [squeeze, squeezeFrom, Bool.false_eq_true, if_false]
      split
      · exact List.mem_cons_self
      · rename_i notBlank
        refine List.mem_cons_of_mem d (inductionHypothesis ?_)
        exact (List.mem_cons.mp member).resolve_left fun same => notBlank (same ▸ blank)

theorem squeeze_of_noBlank {text : List Char} (noBlank : ∀ c ∈ text, isBlank c = false) :
    squeeze text = text :=
  squeezeFrom_of_noBlank false noBlank

/-- Two texts that do not both have a blank where they meet are squeezed one by one. -/
theorem squeeze_append {left right : List Char}
    (meet : ∀ c ∈ left.getLast?, ∀ d ∈ right.head?, isBlank c = false ∨ isBlank d = false) :
    squeeze (left ++ right) = squeeze left ++ squeeze right := by
  rcases List.eq_nil_or_concat' left with rfl | ⟨front, c, rfl⟩
  · rfl
  · cases right with
    | nil => simp [squeeze, squeezeFrom]
    | cons d right =>
        rcases meet c (List.getLast?_concat ..) d rfl with notBlank | notBlank
        · refine squeezeFrom_append_of_last false (by simp) (fun e isLast => ?_) _
          rw [List.getLast?_concat] at isLast
          obtain rfl : c = e := Option.some.inj isLast
          exact notBlank
        · refine squeezeFrom_append_of_head false _ (List.cons_ne_nil d right) fun e isHead => ?_
          obtain rfl : d = e := Option.some.inj isHead
          exact notBlank

/-- A text is squeezed before or after it is divided, if blanks do not count for the
division. -/
theorem span_squeeze {p : Char → Bool} (blanks : ∀ c, isBlank c → p c = p ' ')
    (text : List Char) :
    (squeeze text).span p = (squeeze (text.takeWhile p), squeeze (text.dropWhile p)) := by
  have isFront : ∀ c ∈ squeeze (text.takeWhile p), p c := by
    intro c member
    rcases mem_squeezeFrom member with inFront | rfl
    · exact List.mem_takeWhile_imp inFront
    · by_contra notSpace
      -- the space has been written for a blank of the front
      have noBlank : ∀ d ∈ text.takeWhile p, isBlank d = false := fun d inFront => by
        cases blank : isBlank d with
        | false => rfl
        | true =>
            have isFront := List.mem_takeWhile_imp inFront
            exact absurd ((blanks d blank).symm.trans isFront) notSpace
      rw [squeeze, squeezeFrom_of_noBlank false noBlank] at member
      exact notSpace (List.mem_takeWhile_imp member)
  have notRest : ∀ c ∈ (squeeze (text.dropWhile p)).head?, p c = false := by
    have isHead := List.head?_dropWhile_not p text
    cases rest : text.dropWhile p with
    | nil => simp [squeeze, squeezeFrom]
    | cons d rest =>
        rw [rest] at isHead
        replace isHead : p d = false := isHead
        simp only [squeeze, squeezeFrom, Bool.false_eq_true, if_false]
        intro c isFirst
        split at isFirst
        · rename_i blank
          obtain rfl : ' ' = c := Option.some.inj isFirst
          rw [← blanks d blank, isHead]
        · obtain rfl : d = c := Option.some.inj isFirst
          exact isHead
  have meet : ∀ c ∈ (text.takeWhile p).getLast?, ∀ d ∈ (text.dropWhile p).head?,
      isBlank c = false ∨ isBlank d = false := by
    intro c isLast d isHead
    by_contra bothBlank
    simp only [not_or, Bool.not_eq_false] at bothBlank
    have inFront : p c := List.mem_takeWhile_imp (List.mem_of_getLast? isLast)
    have inRest := List.head?_dropWhile_not p text
    rw [Option.mem_def.mp isHead] at inRest
    replace inRest : p d = false := inRest
    rw [blanks d bothBlank.2, ← blanks c bothBlank.1, inFront] at inRest
    cases inRest
  have parts := squeeze_append meet
  rw [List.takeWhile_append_dropWhile] at parts
  rw [parts, List.span_eq_takeWhile_dropWhile, List.takeWhile_append_of_pos isFront,
    List.dropWhile_append_of_pos isFront]
  cases rest : squeeze (text.dropWhile p) with
  | nil => simp
  | cons d rest =>
      have notFirst : p d = false := notRest d (by rw [rest]; rfl)
      simp [notFirst]

theorem isNameChar_of_isFeatureName {text : List Char} (isFeature : isFeatureName text) :
    ∀ c ∈ text, isNameChar c := by
  cases text with
  | nil => simp
  | cons c text =>
      simp only [isFeatureName, Bool.and_eq_true, List.all_eq_true] at isFeature
      exact List.forall_mem_cons.mpr ⟨(class_of_isAlpha isFeature.1).1, isFeature.2⟩

/-- Squeezing makes no name, since a name has no blanks. -/
theorem isFeatureName_squeeze (text : List Char) :
    isFeatureName (squeeze text) = isFeatureName text := by
  by_cases noBlank : ∀ c ∈ text, isBlank c = false
  · rw [squeeze_of_noBlank noBlank]
  · push Not at noBlank
    obtain ⟨c, member, blank⟩ := noBlank
    have notName : ∀ {name : List Char} {d : Char}, d ∈ name → isBlank d ≠ false →
        isFeatureName name = false := fun isChar blank => by
      rw [Bool.eq_false_iff]
      exact fun isFeature =>
        blank (isBlank_of_isNameChar (isNameChar_of_isFeatureName isFeature _ isChar))
    rw [notName member blank,
      notName (mem_squeeze_of_isBlank member (by simpa using blank)) (by decide)]

theorem isFeatureName_trim_squeeze (text : List Char) :
    isFeatureName (trim (squeeze text)) = isFeatureName (trim text) := by
  rw [trim_squeeze, isFeatureName_squeeze]

theorem isRelationChar_of_isBlank {c : Char} (blank : isBlank c) : isRelationChar c = false :=
  isRelationChar_of_isValueChar (class_of_isBlank blank).1

theorem any_isRelationChar_squeeze (text : List Char) :
    (squeeze text).any isRelationChar = text.any isRelationChar := by
  have ofFrom : ∀ within,
      (squeezeFrom within text).any isRelationChar = text.any isRelationChar := by
    induction text with
    | nil => exact fun _ => rfl
    | cons c text inductionHypothesis =>
        intro within
        rw [squeezeFrom]
        split
        · rename_i blank
          rw [List.any_cons, isRelationChar_of_isBlank blank]
          split
          · exact inductionHypothesis true
          · rw [List.any_cons, inductionHypothesis true]
            rfl
        · rw [List.any_cons, List.any_cons, inductionHypothesis false]
  exact ofFrom false

theorem isSome_ofSides? (left : List Char) (relation : Relation) (right : List Char) :
    (Comparison.ofSides? left relation right).isSome =
      (isFeatureName (trim left) && !right.isEmpty ||
        isFeatureName (trim right) && !left.isEmpty) := by
  unfold Comparison.ofSides?
  split
  · rename_i isLeft
    rw [isLeft]
    rfl
  · rename_i notLeft
    rw [Bool.not_eq_true] at notLeft
    rw [notLeft, Bool.false_or]
    split
    · rename_i isRight
      rw [isRight]
      rfl
    · rename_i notRight
      rw [Bool.not_eq_true] at notRight
      rw [notRight]
      rfl

theorem isSome_enclosing? (left : List Char) (first : Relation) (feature : List Char)
    (second : Relation) (right : List Char) :
    (Comparison.enclosing? left first feature second right).isSome =
      (isFeatureName (trim feature) && !left.isEmpty && !right.isEmpty &&
        first.ascends == second.ascends) := by
  unfold Comparison.enclosing?
  split
  · rename_i encloses
    rw [encloses]
    rfl
  · rename_i notEnclosing
    rw [Bool.not_eq_true] at notEnclosing
    rw [notEnclosing]
    rfl

/-- Squeezing neither makes nor breaks a comparison. -/
theorem isSome_parse?_squeeze (text : List Char) :
    (Comparison.parse? (squeeze text)).isSome = (Comparison.parse? text).isSome := by
  have spanValue : ∀ text : List Char, (squeeze text).span (!isRelationChar ·) =
      (squeeze (text.takeWhile (!isRelationChar ·)),
        squeeze (text.dropWhile (!isRelationChar ·))) :=
    span_squeeze fun c blank => by rw [isRelationChar_of_isBlank blank]; rfl
  have spanSign : ∀ text : List Char, (squeeze text).span isRelationChar =
      (text.takeWhile isRelationChar, squeeze (text.dropWhile isRelationChar)) := by
    intro text
    have noBlank : ∀ c ∈ text.takeWhile isRelationChar, isBlank c = false := fun c member => by
      cases blank : isBlank c with
      | false => rfl
      | true =>
          have isSign := List.mem_takeWhile_imp member
          rw [isRelationChar_of_isBlank blank] at isSign
          cases isSign
    rw [span_squeeze fun c blank => isRelationChar_of_isBlank blank, squeeze_of_noBlank noBlank]
  simp only [Comparison.parse?, spanValue, spanSign, isEmpty_squeeze, any_isRelationChar_squeeze]
  simp only [List.span_eq_takeWhile_dropWhile]
  split
  · rfl
  · split
    · simp only [isSome_ofSides?, isFeatureName_trim_squeeze, isEmpty_squeeze]
    · split
      · rfl
      · split
        · rfl
        · simp only [isSome_enclosing?, isFeatureName_trim_squeeze, isEmpty_squeeze]

theorem parse?_squeeze_of_none {text : List Char} (noComparison : Comparison.parse? text = none) :
    Comparison.parse? (squeeze text) = none := by
  have same := isSome_parse?_squeeze text
  rw [noComparison] at same
  exact Option.isNone_iff_eq_none.mp (by simpa using same)

/-- What has been put in place of an inside states no comparison, squeezed or not. -/
theorem parse?_squeeze_of_mem_boundInsides {inside bound : List Char}
    (isBound : bound ∈ boundInsides inside) : Comparison.parse? (squeeze bound) = none := by
  rcases mem_boundInsides isBound with ⟨rfl, noComparison⟩ | areParts
  · exact parse?_squeeze_of_none noComparison
  · refine parse?_squeeze_of_none (parse?_of_noSign fun c member => (areParts c member).2)

end ContainerPreview.Media
