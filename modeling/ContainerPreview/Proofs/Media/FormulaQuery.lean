import ContainerPreview.Proofs.Media.FormulaBound

/-!
# Queries that ask for a formula

A query asks for a formula, with a media type in front of it or without one.  Translating the
query drops the type, bounds the comparisons of the formula, squeezes its blanks and puts it
in parentheses unless it begins with one.  What is left states the formula, if no comparison
between two values stands right under a negation or beside `or`.
-/

namespace ContainerPreview.Media

open Text Value

/-! ## Spelling -/

/-- What can be written for a media type and the `and` behind it. -/
inductive SpellsType : List Char → Prop where
  | word {type : MediaType} {word before joining after : List Char}
      (isType : IsWord type.name word) (beforeBlank : ∀ c ∈ before, isBlank c)
      (beforePresent : before ≠ []) (isAnd : IsWord "and" joining)
      (afterBlank : ∀ c ∈ after, isBlank c) (afterPresent : after ≠ []) :
      SpellsType (word ++ (before ++ (joining ++ after)))

/-- What can be written for a query that asks for a formula. -/
inductive Formula.SpellsQuery (formula : Formula) : List Char → Prop where
  | plain {text : List Char} (spells : formula.Spells .whole text) : SpellsQuery formula text
  | typed {clause text : List Char} (isClause : SpellsType clause)
      (spells : formula.Spells .whole text) : SpellsQuery formula (clause ++ text)
  | onlyTyped {word blanks clause text : List Char} (isOnly : IsWord "only" word)
      (areBlank : ∀ c ∈ blanks, isBlank c) (present : blanks ≠ []) (isClause : SpellsType clause)
      (spells : formula.Spells .whole text) :
      SpellsQuery formula (word ++ (blanks ++ (clause ++ text)))

/-! ## The type in front -/

/-- A formula begins with no word but `not`. -/
theorem Formula.Spells.dropStartFolded?_eq_none {formula : Formula} {level : Level}
    {text : List Char} (spells : formula.Spells level text) (name : String)
    (letters : name.toList.all Char.isLower) (nonempty : name.toList ≠ [])
    (notNot : name.toList.head? ≠ "not".toList.head?) (rest : List Char) :
    dropStartFolded? name.toList (text ++ rest) = none := by
  induction spells generalizing rest with
  | feature => exact dropStartFolded?_opening letters nonempty _
  | nested => exact dropStartFolded?_opening letters nonempty _
  | single _ _ inductionHypothesis => exact inductionHypothesis rest
  | joined _ _ _ _ ofLeft =>
      rw [List.append_assoc]
      exact ofLeft _
  | negation isNot =>
      rw [List.append_assoc]
      exact isNot.dropStartFolded?_other letters notNot nonempty _

/-- A query without a type is kept. -/
theorem Formula.Spells.dropTypeClause {formula : Formula} {text : List Char}
    (spells : formula.Spells .whole text) {left : List Char} (leftBlank : ∀ c ∈ left, isBlank c)
    (right : List Char) : dropTypeClause (left ++ (text ++ right)) = left ++ (text ++ right) := by
  have isStart : trimStart (left ++ (text ++ right)) = text ++ right := by
    rw [trimStart_append_of_blanks leftBlank, spells.trimStart_append]
  have notOnly := spells.dropStartFolded?_eq_none "only" (by decide) (by decide) (by decide) right
  have notAll := spells.dropStartFolded?_eq_none "all" (by decide) (by decide) (by decide) right
  have notScreen :=
    spells.dropStartFolded?_eq_none "screen" (by decide) (by decide) (by decide) right
  have notPrint := spells.dropStartFolded?_eq_none "print" (by decide) (by decide) (by decide) right
  simp only [Media.dropTypeClause, isStart, dropWordAndBlanks?, dropType?, dropWord?, notOnly,
    notAll, notScreen, notPrint, Option.bind_none, Option.filter_none, Option.or_none]

namespace SpellsType

variable {clause : List Char}

theorem exists_word (isClause : SpellsType clause) :
    ∃ (type : MediaType) (word rest : List Char), clause = word ++ rest ∧ IsWord type.name word := by
  cases isClause with
  | word isType => exact ⟨_, _, _, rfl, isType⟩

theorem trimStart_append (isClause : SpellsType clause) (rest : List Char) :
    trimStart (clause ++ rest) = clause ++ rest := by
  obtain ⟨type, word, others, rfl, isType⟩ := isClause.exists_word
  rw [List.append_assoc, isType.trimStart_append]

theorem not_dropOnly (isClause : SpellsType clause) (rest : List Char) :
    dropWordAndBlanks? "only" (clause ++ rest) = none := by
  obtain ⟨type, word, others, rfl, isType⟩ := isClause.exists_word
  rw [List.append_assoc]
  exact isType.dropWordAndBlanks?_other (by decide) (by cases type <;> decide) (by decide) _

/-- Behind the type there is an `and`. -/
theorem dropType?_append (isClause : SpellsType clause) (rest : List Char) :
    ∃ later after, dropType? (clause ++ rest) = some later ∧ (∀ c ∈ after, isBlank c) ∧
      dropWord? "and" (trimStart later) = some (after ++ rest) := by
  obtain ⟨isType, beforeBlank, beforePresent, isAnd, afterBlank, afterPresent⟩ := isClause
  simp only [List.append_assoc]
  refine ⟨_, _, dropType?_word isType (wordEnds_of_isBlank beforeBlank beforePresent _), afterBlank,
    ?_⟩
  rw [trimStart_append_of_blanks beforeBlank, isAnd.trimStart_append,
    isAnd.dropWord?_same (wordEnds_of_isBlank afterBlank afterPresent _)]

/-- If the type of a query is this one, then the formula behind it is left. -/
theorem dropTypeClause (isClause : SpellsType clause) {formula : Formula} {text : List Char}
    (spells : formula.Spells .whole text) {query right : List Char}
    (isTyped : ((dropWordAndBlanks? "only" (trimStart query)).bind dropType?).or
      (dropType? (trimStart query)) = dropType? (clause ++ (text ++ right))) :
    dropTypeClause query = text ++ right := by
  obtain ⟨later, after, isLater, afterBlank, isAfter⟩ := isClause.dropType?_append (text ++ right)
  simp only [Media.dropTypeClause, isTyped, isLater, isAfter]
  rw [trimStart_append_of_blanks afterBlank, spells.trimStart_append]

end SpellsType

/-- Without its type and the blanks around it, a query is what has been spelled for its
formula. -/
theorem Formula.SpellsQuery.exists_spells {formula : Formula} {query : List Char}
    (asks : formula.SpellsQuery (trim query)) :
    formula.Spells .whole (trim (dropTypeClause query)) := by
  obtain ⟨left, right, same, leftBlank, rightBlank⟩ := exists_append_trim query
  have isStart : trimStart query = trimStart (trim query ++ right) := by
    conv_lhs => rw [same, List.append_assoc, trimStart_append_of_blanks leftBlank]
  have ofText : ∀ {text : List Char}, formula.Spells .whole text → dropTypeClause query = text ++ right →
      formula.Spells .whole (trim (dropTypeClause query)) := fun spells dropped => by
    rw [dropped, ← List.nil_append (_ ++ right), ← List.append_assoc,
      trim_between (List.forall_mem_nil _) spells.isTrimmed rightBlank]
    exact spells
  generalize trim query = trimmed at asks same isStart
  cases asks with
  | plain spells =>
      rw [same, List.append_assoc, spells.dropTypeClause leftBlank, ← List.append_assoc,
        trim_between leftBlank spells.isTrimmed rightBlank]
      exact spells
  | typed isClause spells =>
      refine ofText spells (isClause.dropTypeClause spells ?_)
      rw [isStart, List.append_assoc, isClause.trimStart_append, isClause.not_dropOnly]
      rfl
  | onlyTyped isOnly areBlank present isClause spells =>
      refine ofText spells (isClause.dropTypeClause spells ?_)
      obtain ⟨later, after, isLater, -, -⟩ := isClause.dropType?_append (_ ++ right)
      rw [isStart]
      simp only [List.append_assoc]
      rw [isOnly.trimStart_append, isOnly.dropWordAndBlanks?_same areBlank present,
        isClause.trimStart_append, Option.bind_some, isLater]
      rfl

/-! ## Translation -/

/-- A formula in parentheses is a formula. -/
theorem Formula.StatedAt.parenthesise {formula : Formula} {text : List Char}
    (stated : formula.StatedAt .whole text) : formula.StatedAt .whole (parenthesise text) := by
  unfold Media.parenthesise
  split
  · exact stated
  · have nested : (Formula.group formula).StatedAt .group ('(' :: ([] ++ (text ++ ([] ++ [')'])))) :=
      stated.nested (List.forall_mem_nil _) (List.forall_mem_nil _)
    exact (nested.single (by decide)).congr (Formula.Equivalent.refl formula)

theorem Formula.StatedAt.squeeze {formula : Formula} {level : Level} {text : List Char}
    (stated : formula.StatedAt level text) : formula.StatedAt level (squeeze text) := by
  obtain ⟨statement, spells, same⟩ := stated
  exact ⟨statement, spells.squeeze, same⟩

theorem Formula.StatedAt.trim {formula : Formula} {level : Level} {text : List Char}
    (stated : formula.StatedAt level text) : formula.StatedAt level (trim text) := by
  obtain ⟨statement, spells, same⟩ := stated
  rw [trim_of_isTrimmed spells.isTrimmed]
  exact ⟨statement, spells, same⟩

/-- A query is translated to a text that states its formula, if no comparison between two values
stands right under a negation or beside `or`. -/
theorem translateQuery_states {formula : Formula} {query : String}
    (asks : formula.SpellsQuery (trim query.toList)) (underAnd : formula.splitsUnderAnd) :
    formula.StatedAt .whole (translateQuery query).value.toList := by
  have spells := asks.exists_spells
  have nonempty : (trim (dropTypeClause query.toList)).isEmpty = false := by
    simpa using spells.ne_nil
  have isTranslated := value_translateQuery query.toList
  rw [String.ofList_toList] at isTranslated
  rw [isTranslated, String.toList_ofList]
  simp only [conditionOf, nonempty]
  exact (spells.statedAt_boundComparisons underAnd).squeeze.trim.parenthesise

/-- A negation in parentheses beside two comparisons between values under `and`. -/
def nestedFormula : Formula :=
  .joined .either (.group (.negation (.feature (.flag "color".toList))))
    (.group (.joined .both (.feature (.between "1px".toList "width".toList "2px".toList))
      (.feature (.between "3px".toList "height".toList "4px".toList))))

theorem translateQuery_states_nestedFormula :
    (nestedFormula.SpellsQuery
        (trim " Screen and (not (color))OR ((1px<=width<2px) and (4px>height>3px))".toList) ∧
      nestedFormula.splitsUnderAnd) ∧
    nestedFormula.StatedAt .whole (translateQuery
      " Screen and (not (color))OR ((1px<=width<2px) and (4px>height>3px))").value.toList := by
  have color : Feature.Spells (.flag (trim "color".toList)) "color".toList := .flag (by decide)
  have width : Feature.Spells
      (.between (normal "1px".toList) (trim "width".toList) (normal "2px".toList))
      ("1px".toList ++ ("<=".toList ++ ("width".toList ++ ("<".toList ++ "2px".toList)))) :=
    .ascending (by decide) (by decide) (by decide) (by decide) (by decide)
  have height : Feature.Spells
      (.between (normal "3px".toList) (trim "height".toList) (normal "4px".toList))
      ("4px".toList ++ (">".toList ++ ("height".toList ++ (">".toList ++ "3px".toList)))) :=
    .descending (by decide) (by decide) (by decide) (by decide) (by decide)
  have isNot : IsWord "not" "not".toList := ⟨by decide, by decide, by decide⟩
  have negated : Formula.Spells _ .group
      ('(' :: ([] ++ ("not".toList ++ (" ".toList ++ "(color)".toList) ++ ([] ++ [')'])))) :=
    .nested (by decide) (.negation isNot (by decide) (by decide) (.feature color)) (by decide)
  have ranges : Formula.Spells _ .group
      ('(' :: ([] ++ ("(1px<=width<2px)".toList ++ (" and ".toList ++ "(4px>height>3px)".toList) ++
        ([] ++ [')'])))) :=
    .nested (by decide) (.joined (by decide) (.feature width) spells_and
      (.single (by decide) (.feature height))) (by decide)
  have isOr : Joint.either.Spells ([] ++ ("OR".toList ++ " ".toList)) :=
    .word (by decide) ⟨by decide, by decide, by decide⟩ (by decide) (by decide)
  have isScreen : SpellsType ("Screen".toList ++ (" ".toList ++ ("and".toList ++ " ".toList))) :=
    @SpellsType.word .screen _ _ _ _ ⟨by decide, by decide, by decide⟩ (by decide) (by decide)
      ⟨by decide, by decide, by decide⟩ (by decide) (by decide)
  have asks : nestedFormula.SpellsQuery _ :=
    .typed isScreen (.joined (by decide) negated isOr (.single (by decide) ranges))
  have isQuery :
      trim " Screen and (not (color))OR ((1px<=width<2px) and (4px>height>3px))".toList =
        "Screen".toList ++ (" ".toList ++ ("and".toList ++ " ".toList)) ++
          ('(' :: ([] ++ ("not".toList ++ (" ".toList ++ "(color)".toList) ++ ([] ++ [')']))) ++
            ([] ++ ("OR".toList ++ " ".toList) ++
              '(' :: ([] ++ ("(1px<=width<2px)".toList ++ (" and ".toList ++
                "(4px>height>3px)".toList) ++ ([] ++ [')']))))) := by decide
  rw [← isQuery] at asks
  exact ⟨⟨asks, by decide⟩, @translateQuery_states nestedFormula
    " Screen and (not (color))OR ((1px<=width<2px) and (4px>height>3px))" asks (by decide)⟩

theorem spells_range :
    Formula.Spells (.feature (.between "400px".toList "width".toList "700px".toList)) .group
      "(400px <= width <= 700px)".toList := by
  have spells : Feature.Spells
      (.between (normal "400px ".toList) (trim " width ".toList) (normal " 700px".toList))
      ("400px ".toList ++ ("<=".toList ++ (" width ".toList ++ ("<=".toList ++ " 700px".toList)))) :=
    .ascending (by decide) (by decide) (by decide) (by decide) (by decide)
  exact .feature spells

/-- A comparison between two values does not stay a formula under a negation. -/
theorem not_translateQuery_states :
    ¬ ∀ (formula : Formula) (query : String), formula.SpellsQuery (trim query.toList) →
      formula.StatedAt .whole (translateQuery query).value.toList := by
  intro states
  have isNot : IsWord "not" "not".toList := ⟨by decide, by decide, by decide⟩
  have negation : Formula.Spells (.negation _) .whole
      ("not".toList ++ (" ".toList ++ "(400px <= width <= 700px)".toList)) :=
    .negation isNot (by decide) (by decide) spells_range
  obtain ⟨statement, spells, -⟩ := states _ "not (400px <= width <= 700px)" (.plain negation)
  have isRead := spells.readFormula?
  have notRead :
      readFormula? (translateQuery "not (400px <= width <= 700px)").value.toList = none := by
    decide +kernel
  rw [notRead] at isRead
  cases isRead

end ContainerPreview.Media
