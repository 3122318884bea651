import ContainerPreview.Proofs.Media.FormulaQuery

/-!
# Conditions of nested media blocks

The conditions of a media block and those of a block in it are combined pair by pair, with
`and` between the texts.  Every text that a media list is translated to begins with a
parenthesis, so a pair is a chain under `and` unless one of its texts is a chain under `or`.
Read as alternatives, the combined conditions then hold exactly if both lists do.  How three
lists are combined does not depend on the order.
-/

namespace ContainerPreview.Media

open Text Value

/-! ## Meaning of conditions -/

/-- A text is a condition: it is spelled for a formula. -/
def IsCondition (text : String) : Prop :=
  ∃ formula : Formula, formula.Spells .whole text.toList

/-- The formula is joined by `or` without parentheses around it. -/
def Formula.isAlternative : Formula → Bool
  | .joined .either _ _ => true
  | _ => false

/-- A text is a chain of groups under `or`. -/
def IsAlternative (text : String) : Prop :=
  ∃ formula : Formula, formula.Spells .whole text.toList ∧ formula.isAlternative

section Meaning

variable {α : Type} [LE α]

/-- A text holds under an assignment as the formula that it is spelled for. -/
def TextHolds (assignment : Assignment α) (text : String) : Prop :=
  ∃ formula : Formula, formula.Spells .whole text.toList ∧ formula.Holds assignment

/-- One of the conditions holds.  A list without conditions always holds. -/
def AnyHolds (assignment : Assignment α) (texts : List String) : Prop :=
  texts = [] ∨ ∃ text ∈ texts, TextHolds assignment text

theorem textHolds_iff {formula : Formula} {text : String}
    (spells : formula.Spells .whole text.toList) (assignment : Assignment α) :
    TextHolds assignment text ↔ formula.Holds assignment := by
  constructor
  · rintro ⟨other, spells', holds⟩
    rwa [spells.unique spells']
  · exact fun holds => ⟨formula, spells, holds⟩

@[simp]
theorem anyHolds_nil (assignment : Assignment α) : AnyHolds assignment [] :=
  .inl rfl

theorem anyHolds_of_ne_nil {texts : List String} (present : texts ≠ [])
    (assignment : Assignment α) :
    AnyHolds assignment texts ↔ ∃ text ∈ texts, TextHolds assignment text :=
  or_iff_right present

end Meaning

/-! ## Conditions begin with a parenthesis -/

/-- The text begins with a parenthesis. -/
def Opens (text : List Char) : Prop :=
  ∃ rest, text = '(' :: rest

theorem opens_parenthesise (text : List Char) : Opens (parenthesise text) := by
  unfold parenthesise
  split
  · exact ⟨_, rfl⟩
  · exact ⟨_, rfl⟩

theorem opens_conditionOf {query : List Char} (present : (conditionOf query).isEmpty = false) :
    Opens (conditionOf query) := by
  simp only [conditionOf] at present ⊢
  split at present
  · cases present
  · rename_i notBlank
    rw [if_neg notBlank]
    exact opens_parenthesise _

theorem opens_negate (condition : List Char) : Opens (negate condition) := by
  unfold negate
  split
  · exact ⟨"not ".toList ++ condition ++ [')'], rfl⟩
  · exact ⟨"not (".toList ++ condition ++ "))".toList, rfl⟩

theorem opens_of_judge {query condition : String}
    (isUnder : (judge query).value = .under condition) : Opens condition.toList := by
  cases isNegated : dropNot? query.toList with
  | none =>
      have isJudged := value_judge isNegated
      rw [String.ofList_toList, isUnder] at isJudged
      split at isJudged
      · cases isJudged
      · rename_i present
        obtain rfl := Verdict.under.inj isJudged
        rw [String.toList_ofList]
        exact opens_conditionOf ((Bool.not_eq_true _).mp present)
  | some negated =>
      rw [judge, isNegated, value_judgeNegated] at isUnder
      split at isUnder
      · cases isUnder
      · split at isUnder
        · cases isUnder
        · obtain rfl := Verdict.under.inj isUnder
          rw [String.toList_ofList]
          exact opens_negate _

theorem opens_of_gather {hook : Option Hook} {queries texts : List String}
    (isGathered : (gather hook queries).value = some texts) :
    ∀ text ∈ texts, Opens text.toList := by
  induction queries generalizing texts with
  | nil =>
      obtain rfl : [] = texts := Option.some.inj isGathered
      exact List.forall_mem_nil _
  | cons query queries inductionHypothesis =>
      rw [gather] at isGathered
      split at isGathered
      · exact inductionHypothesis isGathered
      · rw [Traced.value_bind, Traced.value_bind] at isGathered
        cases isJudged : (judge (applyHook hook query).value).value with
        | always =>
            rw [isJudged] at isGathered
            cases isGathered
        | never =>
            rw [isJudged] at isGathered
            exact inductionHypothesis isGathered
        | under condition =>
            rw [isJudged, Traced.value_bind, Traced.value_pure, Option.map_eq_some_iff]
              at isGathered
            obtain ⟨others, areOthers, rfl⟩ := isGathered
            exact List.forall_mem_cons.mpr ⟨opens_of_judge isJudged, inductionHypothesis areOthers⟩

theorem opens_of_conditions {hook : Option Hook} {params : String} {texts : List String}
    (areConditions : (conditions hook params).value = some texts) :
    ∀ text ∈ texts, Opens text.toList := by
  rw [conditions, Traced.value_bind] at areConditions
  split at areConditions
  · obtain rfl : [] = texts := Option.some.inj areConditions
    exact List.forall_mem_nil _
  · cases areConditions
  · rename_i isGathered
    obtain rfl := Option.some.inj areConditions
    exact opens_of_gather isGathered

/-! ## Pairs of conditions -/

/-- A condition in front of which there is a parenthesis is a chain under `and` or under
`or`. -/
theorem Formula.Spells.chain_of_opens {formula : Formula} {text : List Char}
    (spells : formula.Spells .whole text) (opens : Opens text)
    (notAlternative : formula.isAlternative = false) : formula.Spells (.chain .both) text := by
  obtain ⟨rest, isOpened⟩ := opens
  cases spells with
  | single _ spells => exact .single (by decide) spells
  | @joined _ _ _ joint _ _ _ _ spellsLeft isJoint spellsRight =>
      cases joint with
      | both => exact .joined (by decide) spellsLeft isJoint spellsRight
      | either => cases notAlternative
  | negation isNot =>
      obtain ⟨c, others, rfl, isAlpha⟩ := isNot.exists_cons
      rw [List.cons_append, List.cons.injEq] at isOpened
      exact absurd isOpened.1 (Joined.ne_opening_of_isAlpha isAlpha)

/-- A text is a chain of groups under `and`. -/
def IsConjunct (text : String) : Prop :=
  ∃ formula : Formula, formula.Spells (.chain .both) text.toList

theorem IsCondition.isConjunct {text : String} (isCondition : IsCondition text)
    (opens : Opens text.toList) (notAlternative : ¬ IsAlternative text) : IsConjunct text := by
  obtain ⟨formula, spells⟩ := isCondition
  refine ⟨formula, spells.chain_of_opens opens ?_⟩
  cases isAlternative : formula.isAlternative with
  | false => rfl
  | true => exact absurd ⟨formula, spells, isAlternative⟩ notAlternative

/-- Two chains under `and` are joined to one that holds if both do. -/
theorem IsConjunct.pair {left right : String} (isLeft : IsConjunct left)
    (isRight : IsConjunct right) :
    IsCondition (left ++ " and " ++ right) ∧
      ∀ {α : Type} [LE α] (assignment : Assignment α),
        TextHolds assignment (left ++ " and " ++ right) ↔
          TextHolds assignment left ∧ TextHolds assignment right := by
  obtain ⟨formula, spells⟩ := isLeft
  obtain ⟨other, spells'⟩ := isRight
  obtain ⟨statement, stated, same⟩ :=
    spells.append spells_and spells' (show .both ∈ Level.whole.joints by decide)
  have isText : (left ++ " and " ++ right).toList =
      left.toList ++ (" and ".toList ++ right.toList) := by
    simp only [String.toList_append, List.append_assoc]
  rw [← isText] at stated
  refine ⟨⟨statement, stated⟩, fun assignment => ?_⟩
  rw [textHolds_iff stated, textHolds_iff spells.whole, textHolds_iff spells'.whole,
    same assignment, Formula.Holds]

/-! ## Lists of conditions -/

theorem combine_of_ne_nil {outer inner : List String} (outerPresent : outer ≠ [])
    (innerPresent : inner ≠ []) :
    combine outer inner =
      outer.flatMap fun left => inner.map fun right => left ++ " and " ++ right := by
  cases outer with
  | nil => exact absurd rfl outerPresent
  | cons => cases inner with
    | nil => exact absurd rfl innerPresent
    | cons => rfl

theorem combine_ne_nil {outer inner : List String} (outerPresent : outer ≠ [])
    (innerPresent : inner ≠ []) : combine outer inner ≠ [] := by
  rw [combine_of_ne_nil outerPresent innerPresent]
  obtain ⟨left, others, rfl⟩ := List.exists_cons_of_ne_nil outerPresent
  obtain ⟨right, others', rfl⟩ := List.exists_cons_of_ne_nil innerPresent
  simp

theorem combine_assoc (outer middle inner : List String) :
    combine (combine outer middle) inner = combine outer (combine middle inner) := by
  rcases eq_or_ne outer [] with rfl | outerPresent
  · simp only [combine_nil_left]
  rcases eq_or_ne middle [] with rfl | middlePresent
  · simp only [combine_nil_left, combine_nil_right]
  rcases eq_or_ne inner [] with rfl | innerPresent
  · simp only [combine_nil_right]
  rw [combine_of_ne_nil (combine_ne_nil outerPresent middlePresent) innerPresent,
    combine_of_ne_nil outerPresent (combine_ne_nil middlePresent innerPresent),
    combine_of_ne_nil outerPresent middlePresent, combine_of_ne_nil middlePresent innerPresent,
    List.flatMap_assoc]
  simp only [List.flatMap_map, List.map_flatMap, List.map_map, Function.comp_def,
    String.append_assoc]

/-- Pairs of chains under `and` hold if a chain of each list does. -/
theorem combine_of_areConjuncts {outer inner : List String} (outerPresent : outer ≠ [])
    (innerPresent : inner ≠ []) (areOuter : ∀ text ∈ outer, IsConjunct text)
    (areInner : ∀ text ∈ inner, IsConjunct text) :
    (∀ text ∈ combine outer inner, IsCondition text) ∧
      ∀ {α : Type} [LE α] (assignment : Assignment α),
        AnyHolds assignment (combine outer inner) ↔
          AnyHolds assignment outer ∧ AnyHolds assignment inner := by
  have mem_combine : ∀ {text}, text ∈ combine outer inner ↔
      ∃ left ∈ outer, ∃ right ∈ inner, left ++ " and " ++ right = text := by
    intro text
    rw [combine_of_ne_nil outerPresent innerPresent]
    simp only [List.mem_flatMap, List.mem_map]
  refine ⟨fun text member => ?_, fun assignment => ?_⟩
  · obtain ⟨left, isOuter, right, isInner, rfl⟩ := mem_combine.mp member
    exact ((areOuter left isOuter).pair (areInner right isInner)).1
  · rw [anyHolds_of_ne_nil (combine_ne_nil outerPresent innerPresent),
      anyHolds_of_ne_nil outerPresent, anyHolds_of_ne_nil innerPresent]
    constructor
    · rintro ⟨text, member, holds⟩
      obtain ⟨left, isOuter, right, isInner, rfl⟩ := mem_combine.mp member
      have both := (((areOuter left isOuter).pair (areInner right isInner)).2 assignment).mp holds
      exact ⟨⟨left, isOuter, both.1⟩, ⟨right, isInner, both.2⟩⟩
    · rintro ⟨⟨left, isOuter, leftHolds⟩, ⟨right, isInner, rightHolds⟩⟩
      exact ⟨_, mem_combine.mpr ⟨left, isOuter, right, isInner, rfl⟩,
        (((areOuter left isOuter).pair (areInner right isInner)).2 assignment).mpr
          ⟨leftHolds, rightHolds⟩⟩

/-- The conditions of two media lists are combined to conditions of which one holds exactly if
one of each list does, unless a list has a condition that is joined by `or` without
parentheses.  Combining is associative. -/
theorem combine_conjoins {hook : Option Hook} {outerParams innerParams : String}
    {outer inner : List String} (isOuter : (conditions hook outerParams).value = some outer)
    (isInner : (conditions hook innerParams).value = some inner)
    (areOuter : ∀ text ∈ outer, IsCondition text) (areInner : ∀ text ∈ inner, IsCondition text)
    (unmixed : outer = [] ∨ inner = [] ∨ ∀ text ∈ outer ++ inner, ¬ IsAlternative text) :
    (∀ text ∈ combine outer inner, IsCondition text) ∧
      (∀ {α : Type} [LE α] (assignment : Assignment α),
        AnyHolds assignment (combine outer inner) ↔
          AnyHolds assignment outer ∧ AnyHolds assignment inner) ∧
      ∀ last, combine (combine outer inner) last = combine outer (combine inner last) := by
  rcases eq_or_ne outer [] with rfl | outerPresent
  · exact ⟨areInner, fun assignment => by simp, combine_assoc [] inner⟩
  rcases eq_or_ne inner [] with rfl | innerPresent
  · rw [combine_nil_right]
    exact ⟨areOuter, fun assignment => by simp, fun last => by rw [combine_nil_left]⟩
  have notAlternative := (unmixed.resolve_left outerPresent).resolve_left innerPresent
  have outerConjuncts : ∀ text ∈ outer, IsConjunct text := fun text member =>
    (areOuter text member).isConjunct (opens_of_conditions isOuter text member)
      (notAlternative text (List.mem_append_left inner member))
  have innerConjuncts : ∀ text ∈ inner, IsConjunct text := fun text member =>
    (areInner text member).isConjunct (opens_of_conditions isInner text member)
      (notAlternative text (List.mem_append_right outer member))
  obtain ⟨areConditions, conjoins⟩ :=
    combine_of_areConjuncts outerPresent innerPresent outerConjuncts innerConjuncts
  exact ⟨areConditions, conjoins, combine_assoc outer inner⟩

/-- A single word in parentheses. -/
theorem spells_word {name : List Char} (isName : IsName name) :
    (Formula.feature (.flag name)).Spells .group ('(' :: (name ++ [')'])) := by
  have same := trim_of_isTrimmed isName.isTrimmed
  have spells : Feature.Spells (.flag (trim name)) name := .flag (by rwa [same])
  rw [same] at spells
  exact .feature spells

/-- A query with a type around a list of a negation and of an alternative in parentheses. -/
theorem combine_conjoins_negationAndAlternative :
    ((conditions none "screen and (color)").value = some ["(color)"] ∧
      (conditions none "not (hover), ((wide) or (tall))").value =
        some ["(not (hover))", "((wide) or (tall))"] ∧
      (∀ text ∈ ["(color)"], IsCondition text) ∧
      (∀ text ∈ ["(not (hover))", "((wide) or (tall))"], IsCondition text) ∧
      ∀ text ∈ ["(color)"] ++ ["(not (hover))", "((wide) or (tall))"], ¬ IsAlternative text) ∧
    (∀ text ∈ combine ["(color)"] ["(not (hover))", "((wide) or (tall))"], IsCondition text) ∧
      (∀ {α : Type} [LE α] (assignment : Assignment α),
        AnyHolds assignment (combine ["(color)"] ["(not (hover))", "((wide) or (tall))"]) ↔
          AnyHolds assignment ["(color)"] ∧
            AnyHolds assignment ["(not (hover))", "((wide) or (tall))"]) ∧
      ∀ last, combine (combine ["(color)"] ["(not (hover))", "((wide) or (tall))"]) last =
        combine ["(color)"] (combine ["(not (hover))", "((wide) or (tall))"] last) := by
  have isNot : IsWord "not" "not".toList := ⟨by decide, by decide, by decide⟩
  have isOr : Joint.either.Spells ([' '] ++ ("or".toList ++ [' '])) :=
    .word (by decide) ⟨by decide, by decide, by decide⟩ (by decide) (by decide)
  have color : Formula.Spells _ .whole "(color)".toList :=
    .single (by decide) (@spells_word "color".toList (by decide))
  have negated : Formula.Spells _ .group
      ('(' :: ([] ++ ("not".toList ++ (" ".toList ++ "(hover)".toList) ++ ([] ++ [')'])))) :=
    .nested (by decide) (.negation isNot (by decide) (by decide)
      (@spells_word "hover".toList (by decide))) (by decide)
  have alternative : Formula.Spells _ .group
      ('(' :: ([] ++ ("(wide)".toList ++ ([' '] ++ ("or".toList ++ [' ']) ++ "(tall)".toList) ++
        ([] ++ [')'])))) :=
    .nested (by decide) (.joined (by decide) (@spells_word "wide".toList (by decide)) isOr
      (.single (by decide) (@spells_word "tall".toList (by decide)))) (by decide)
  have areOuter : ∀ text ∈ ["(color)"], IsCondition text :=
    List.forall_mem_singleton.mpr ⟨_, color⟩
  have areInner : ∀ text ∈ ["(not (hover))", "((wide) or (tall))"], IsCondition text :=
    List.forall_mem_cons.mpr ⟨⟨_, .single (by decide) negated⟩,
      List.forall_mem_singleton.mpr ⟨_, .single (by decide) alternative⟩⟩
  have unmixed : ∀ text ∈ ["(color)"] ++ ["(not (hover))", "((wide) or (tall))"],
      ¬ IsAlternative text := by
    rintro text member ⟨formula, spells, isAlternative⟩
    have notRead : ∀ text ∈ ["(color)"] ++ ["(not (hover))", "((wide) or (tall))"],
        (readFormula? text.toList).any Formula.isAlternative = false := by decide +kernel
    have isRead := notRead text member
    rw [spells.readFormula?, Option.any_some, isAlternative] at isRead
    cases isRead
  have isOuter : (conditions none "screen and (color)").value = some ["(color)"] := by
    decide +kernel
  have isInner : (conditions none "not (hover), ((wide) or (tall))").value =
      some ["(not (hover))", "((wide) or (tall))"] := by decide +kernel
  exact ⟨⟨isOuter, isInner, areOuter, areInner, unmixed⟩,
    combine_conjoins isOuter isInner areOuter areInner (.inr (.inr unmixed))⟩

/-- An alternative without parentheses beside a condition is no condition any more. -/
theorem not_combine_conjoins :
    ¬ ∀ (hook : Option Hook) (outerParams innerParams : String) (outer inner : List String),
      (conditions hook outerParams).value = some outer →
        (conditions hook innerParams).value = some inner →
          (∀ text ∈ outer ++ inner, IsCondition text) →
            ∀ {α : Type} [LE α] (assignment : Assignment α),
              AnyHolds assignment (combine outer inner) ↔
                AnyHolds assignment outer ∧ AnyHolds assignment inner := by
  intro conjoins
  have isOr : Joint.either.Spells ([' '] ++ ("or".toList ++ [' '])) :=
    .word (by decide) ⟨by decide, by decide, by decide⟩ (by decide) (by decide)
  have spells_bound : ∀ {name value : List Char}, IsName (trim name) → IsValue (' ' :: value) →
      Formula.Spells (.feature (.plain (trim name) (normal (' ' :: value)))) .group
        ('(' :: (name ++ ':' :: ' ' :: value ++ [')'])) :=
    fun isName isValue => .feature (.plain isName isValue)
  have outer : Formula.Spells _ .whole
      ("(min-width: 600px)".toList ++ ([' '] ++ ("or".toList ++ [' ']) ++
        "(min-height: 400px)".toList)) :=
    .joined (by decide) (@spells_bound "min-width".toList "600px".toList (by decide) (by decide))
      isOr (.single (by decide)
        (@spells_bound "min-height".toList "400px".toList (by decide) (by decide)))
  have inner : Formula.Spells _ .whole "(max-width: 900px)".toList :=
    .single (by decide) (@spells_bound "max-width".toList "900px".toList (by decide) (by decide))
  have isOuter : (conditions none "(min-width: 600px) or (min-height: 400px)").value =
      some ["(min-width: 600px) or (min-height: 400px)"] := by decide +kernel
  have isInner : (conditions none "(max-width: 900px)").value = some ["(max-width: 900px)"] := by
    decide +kernel
  have areConditions : ∀ text ∈ ["(min-width: 600px) or (min-height: 400px)"] ++
      ["(max-width: 900px)"], IsCondition text :=
    List.forall_mem_cons.mpr ⟨⟨_, outer⟩, List.forall_mem_singleton.mpr ⟨_, inner⟩⟩
  -- all bounds hold if every number is zero
  let zero : Assignment Nat :=
    { feature := fun _ => 0, value := fun _ => 0, present := fun _ => True, equals := fun _ _ => True }
  have combined := (conjoins none _ _ _ _ isOuter isInner areConditions zero).mpr
    ⟨.inr ⟨_, List.mem_singleton.mpr rfl, _, outer, .inl (Nat.le_refl 0)⟩,
      .inr ⟨_, List.mem_singleton.mpr rfl, _, inner, Nat.le_refl 0⟩⟩
  rw [anyHolds_of_ne_nil (by decide)] at combined
  obtain ⟨text, member, formula, spells, -⟩ := combined
  have notRead : ∀ text ∈ combine ["(min-width: 600px) or (min-height: 400px)"]
      ["(max-width: 900px)"], readFormula? text.toList = none := by decide +kernel
  have isRead := notRead text member
  rw [spells.readFormula?] at isRead
  cases isRead

end ContainerPreview.Media
