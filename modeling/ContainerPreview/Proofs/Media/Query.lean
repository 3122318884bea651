import ContainerPreview.Proofs.Media.Words
import Mathlib.Data.List.Forall2

/-!
# Queries and the conditions that stand for them

A query restricts the kind of media and asks for features, and it can be negated.  On a
screen it says something about the features alone.  The condition that stands for a query
says the same about its features as the query does, and the words of a query tell its type.
-/

namespace ContainerPreview.Media

open Text Value

/-! ## Meaning -/

/-- A kind of media. -/
inductive MediaType where
  | all
  | screen
  | print
deriving DecidableEq, Repr

/-- The word for a kind of media. -/
def MediaType.name : MediaType → String
  | .all => "all"
  | .screen => "screen"
  | .print => "print"

/-- A media query.  Features without a type are asked for on all media. -/
structure Query where
  negated : Bool
  type : MediaType
  features : List Feature
deriving DecidableEq, Repr

section Meaning

variable {α : Type} [LE α]

/-- A query holds on a screen. -/
def Query.HoldsOnScreen (assignment : Assignment α) (query : Query) : Prop :=
  if query.negated then ¬ (query.type ≠ .print ∧ HoldAll assignment query.features)
  else query.type ≠ .print ∧ HoldAll assignment query.features

/-- A list of queries holds on a screen. -/
def AnyHoldsOnScreen (assignment : Assignment α) (queries : List Query) : Prop :=
  ∃ query ∈ queries, query.HoldsOnScreen assignment

end Meaning

/-! ## Spelling -/

/-- Groups in parentheses, joined by `and`, spell features. -/
def SpellsAll (features : List Feature) (text : List Char) : Prop :=
  ∃ insides, Joined insides text ∧ List.Forall₂ Feature.Spells features insides

/-- A type and the features that are asked for beside it. -/
inductive SpellsTyped (type : MediaType) : List Feature → List Char → Prop where
  | alone {word : List Char} (isType : IsWord type.name word) : SpellsTyped type [] word
  | withFeatures {features : List Feature} {word before joining after text : List Char}
      (isType : IsWord type.name word) (beforeBlank : ∀ c ∈ before, isBlank c)
      (present : before ≠ []) (isAnd : IsWord "and" joining)
      (afterBlank : ∀ c ∈ after, isBlank c) (spells : SpellsAll features text) :
      SpellsTyped type features (word ++ (before ++ (joining ++ (after ++ text))))

/-- What can be written for a query. -/
inductive Query.Spells : Query → List Char → Prop where
  | features {features : List Feature} {text : List Char} (spells : SpellsAll features text) :
      Spells ⟨false, .all, features⟩ text
  | typed {type : MediaType} {features : List Feature} {text : List Char}
      (spells : SpellsTyped type features text) : Spells ⟨false, type, features⟩ text
  | onlyTyped {type : MediaType} {features : List Feature} {word blanks text : List Char}
      (isOnly : IsWord "only" word) (areBlank : ∀ c ∈ blanks, isBlank c) (present : blanks ≠ [])
      (spells : SpellsTyped type features text) :
      Spells ⟨false, type, features⟩ (word ++ (blanks ++ text))
  | notTyped {type : MediaType} {features : List Feature} {word blanks text : List Char}
      (isNot : IsWord "not" word) (areBlank : ∀ c ∈ blanks, isBlank c) (present : blanks ≠ [])
      (spells : SpellsTyped type features text) :
      Spells ⟨true, type, features⟩ (word ++ (blanks ++ text))
  | notGroup {feature : Feature} {word blanks text : List Char}
      (isNot : IsWord "not" word) (areBlank : ∀ c ∈ blanks, isBlank c) (present : blanks ≠ [])
      (spells : SpellsAll [feature] text) : Spells ⟨true, .all, [feature]⟩ (word ++ (blanks ++ text))

/-! ## Characters of features -/

/-- What is spelled for a feature consists of values and relation signs. -/
theorem Feature.Spells.class_of_mem {feature : Feature} {inside : List Char}
    (spells : feature.Spells inside) : ∀ c ∈ inside, isValueChar c ∨ isRelationChar c := by
  have ofValue : ∀ {text : List Char}, IsValue text →
      ∀ c ∈ text, isValueChar c ∨ isRelationChar c :=
    fun isValue c member => .inl (isValue c member)
  have ofSign : ∀ {sign : List Char} {ascends : Bool}, sign ∈ signs ascends →
      ∀ c ∈ sign, isValueChar c ∨ isRelationChar c :=
    fun isSign c member => .inr ((relation_of_mem_signs isSign).1 c member)
  cases spells with
  | flag isName => exact ofValue isName.isValue
  | plain isName isValue =>
      exact List.forall_mem_append.mpr ⟨ofValue isName.isValue,
        List.forall_mem_cons.mpr ⟨.inl (by decide), ofValue isValue⟩⟩
  | nameFirst isName isSign isNumeric =>
      simp only [List.forall_mem_append]
      exact ⟨ofValue isName.isValue, ofSign isSign, ofValue isNumeric.1⟩
  | valueFirst isNumeric isSign isName =>
      simp only [List.forall_mem_append]
      exact ⟨ofValue isNumeric.1, ofSign isSign, ofValue isName.isValue⟩
  | ascending isLow isFirst isName isSecond isHigh =>
      simp only [List.forall_mem_append]
      exact ⟨ofValue isLow.1, ofSign isFirst, ofValue isName.isValue, ofSign isSecond,
        ofValue isHigh.1⟩
  | descending isHigh isFirst isName isSecond isLow =>
      simp only [List.forall_mem_append]
      exact ⟨ofValue isHigh.1, ofSign isFirst, ofValue isName.isValue, ofSign isSecond,
        ofValue isLow.1⟩

/-- Values and relation signs have no brackets, quotes and commas in them. -/
theorem notSpecial_of_class {c : Char} (inFeature : isValueChar c ∨ isRelationChar c) :
    c ∉ "()[]\"',".toList := by
  have special : ∀ s ∈ "()[]\"',".toList, isValueChar s = false ∧ isRelationChar s = false := by
    decide
  intro member
  obtain ⟨notValue, notRelation⟩ := special c member
  rcases inFeature with isValue | isRelation
  · rw [notValue] at isValue
    cases isValue
  · rw [notRelation] at isRelation
    cases isRelation

theorem Feature.Spells.isUngrouped {feature : Feature} {inside : List Char}
    (spells : feature.Spells inside) : ∀ c ∈ inside, isUngrouped c := by
  intro c member
  have notSpecial := notSpecial_of_class (spells.class_of_mem c member)
  rw [Media.isUngrouped, Bool.and_eq_true, bne_iff_ne, bne_iff_ne]
  refine ⟨?_, ?_⟩ <;> (rintro rfl; exact notSpecial (by decide))

/-! ## The condition that stands for features -/

/-- A text spells features that together say what the given ones do. -/
def StatesAll (features : List Feature) (text : List Char) : Prop :=
  ∃ stated, SpellsAll stated text ∧
    ∀ {α : Type} [LE α] (assignment : Assignment α),
      HoldAll assignment stated ↔ HoldAll assignment features

/-- Bounding the comparisons of all groups keeps what they say together. -/
theorem exists_spells_boundInsides {features : List Feature} {insides : List (List Char)}
    (spells : List.Forall₂ Feature.Spells features insides) :
    ∃ stated, List.Forall₂ Feature.Spells stated (insides.flatMap boundInsides) ∧
      ∀ {α : Type} [LE α] (assignment : Assignment α),
        HoldAll assignment stated ↔ HoldAll assignment features := by
  induction spells with
  | nil => exact ⟨[], .nil, fun _ => Iff.rfl⟩
  | cons here _ inductionHypothesis =>
      obtain ⟨first, spellsFirst, sameFirst⟩ := sameMeaning_boundInsides here
      obtain ⟨others, spellsOthers, sameOthers⟩ := inductionHypothesis
      refine ⟨first ++ others, List.rel_append spellsFirst spellsOthers, fun assignment => ?_⟩
      rw [HoldAll, List.forall_mem_append, HoldAll, List.forall_mem_cons, ← sameFirst assignment]
      exact and_congr_right' (sameOthers assignment)

theorem isUngrouped_of_spells {features : List Feature} {insides : List (List Char)}
    (spells : List.Forall₂ Feature.Spells features insides) :
    ∀ inside ∈ insides, ∀ c ∈ inside, isUngrouped c := by
  induction spells with
  | nil => simp
  | cons here _ inductionHypothesis =>
      exact List.forall_mem_cons.mpr ⟨here.isUngrouped, inductionHypothesis⟩

/-- The condition for features says what they say. -/
theorem SpellsAll.statesAll {features : List Feature} {text : List Char}
    (spells : SpellsAll features text) :
    StatesAll features (parenthesise (trim (squeeze (boundComparisons text)))) := by
  obtain ⟨insides, joined, spelled⟩ := spells
  obtain ⟨stated, spellsStated, same⟩ := exists_spells_boundInsides spelled
  have noGroup := isUngrouped_of_spells spellsStated
  have bounded := (joined.boundComparisons fun inside member bound isBound =>
    noGroup bound (List.mem_flatMap.mpr ⟨inside, member, isBound⟩)).squeeze
  refine ⟨stated, ⟨_, ?_, List.forall₂_map_right_iff.mpr (spellsStated.imp fun _ _ here =>
    here.squeeze)⟩, same⟩
  rw [trim_of_isTrimmed bounded.isTrimmed]
  obtain ⟨rest, isText⟩ := bounded.exists_cons
  rw [isText] at bounded ⊢
  exact bounded

/-! ## Types -/

theorem MediaType.letters (type : MediaType) : type.name.toList.all Char.isLower := by
  cases type <;> decide

/-- What is left after a type. -/
theorem dropType?_word {type : MediaType} {word rest : List Char} (isType : IsWord type.name word)
    (ends : wordEnds rest) : dropType? (word ++ rest) = some rest := by
  have none : ∀ other : MediaType, other ≠ type → dropWord? other.name (word ++ rest) = none :=
    fun other different => by
      refine isType.dropWord?_other other.letters ?_ ?_ rest
      · cases type <;> cases other <;> first | exact absurd rfl different | decide
      · cases other <;> decide
  have same := isType.dropWord?_same ends
  cases type with
  | all => exact congrArg (Option.or · _) same
  | screen =>
      have notAll := none .all (by decide)
      exact (congrArg (Option.or · _) notAll).trans (congrArg (Option.or · _) same)
  | print =>
      have notAll := none .all (by decide)
      have notScreen := none .screen (by decide)
      exact (congrArg (Option.or · _) notAll).trans
        ((congrArg (Option.or · _) notScreen).trans same)

theorem endsWord_blanks_of_nonempty {blanks : List Char} (areBlank : ∀ c ∈ blanks, isBlank c)
    (present : blanks ≠ []) (rest : List Char) : EndsWord (blanks ++ rest) := by
  obtain ⟨c, blanks, rfl⟩ := List.exists_cons_of_ne_nil present
  rw [EndsWord, ungrouped_blanks areBlank]
  rintro d isHead
  obtain rfl : c = d := Option.some.inj isHead
  exact isFoldedLetter_of_isBlank (areBlank c List.mem_cons_self)

namespace SpellsTyped

variable {type : MediaType} {features : List Feature} {text : List Char}

/-- A type comes first. -/
theorem exists_word (spells : SpellsTyped type features text) :
    ∃ word rest, text = word ++ rest ∧ IsWord type.name word := by
  cases spells with
  | alone isType => exact ⟨text, [], (List.append_nil text).symm, isType⟩
  | withFeatures isType => exact ⟨_, _, rfl, isType⟩

theorem trimStart (spells : SpellsTyped type features text) : trimStart text = text := by
  obtain ⟨word, rest, rfl, isType⟩ := spells.exists_word
  exact isType.trimStart_append rest

theorem dropWordAndBlanks?_eq_none (spells : SpellsTyped type features text) (other : String)
    (letters : other.toList.all Char.isLower) (nonempty : other.toList ≠ [])
    (different : ∀ type : MediaType, other.toList.head? ≠ type.name.toList.head?) :
    dropWordAndBlanks? other text = none := by
  obtain ⟨word, rest, rfl, isType⟩ := spells.exists_word
  exact isType.dropWordAndBlanks?_other letters (different type) nonempty rest

/-- The words outside the groups are the type and `and`. -/
theorem outerWords (spells : SpellsTyped type features text) :
    ∃ joining, outerWords text = type.name.toList :: joining ∧
      ∀ word ∈ joining, word = "and".toList := by
  cases spells with
  | alone isType =>
      have isWords := outerWords_word isType endsWord_nil
      rw [List.append_nil, outerWords_nil] at isWords
      exact ⟨[], isWords, by simp⟩
  | withFeatures isType beforeBlank present isAnd afterBlank spells =>
      obtain ⟨insides, joined, -⟩ := spells
      refine ⟨"and".toList :: Media.outerWords _, ?_,
        List.forall_mem_cons.mpr ⟨rfl, joined.outerWords⟩⟩
      rw [outerWords_word isType (endsWord_blanks_of_nonempty beforeBlank present _),
        outerWords_blanks beforeBlank,
        outerWords_word isAnd (endsWord_blanks afterBlank joined.endsWord),
        outerWords_blanks afterBlank]

/-- A typed text names its type alone. -/
theorem names_iff (spells : SpellsTyped type features text) (other : MediaType) :
    names text other.name ↔ type = other := by
  obtain ⟨joining, isWords, areAnd⟩ := spells.outerWords
  have notJoining : other.name.toList ∉ joining := fun member => by
    have isAnd := areAnd _ member
    revert isAnd
    cases other <;> decide
  rw [names, isWords, List.contains_iff_mem, List.mem_cons]
  constructor
  · rintro (same | inJoining)
    · revert same
      cases type <;> cases other <;> decide
    · exact absurd inJoining notJoining
  · rintro rfl
    exact .inl rfl

/-- What is left of a typed text is nothing, or spells its features. -/
theorem dropType? (spells : SpellsTyped type features text) :
    ∃ rest, Media.dropType? text = some rest ∧
      (features = [] ∧ rest = [] ∨ ∃ joining after text',
        Text.trimStart rest = joining ++ (after ++ text') ∧ IsWord "and" joining ∧
          (∀ c ∈ after, isBlank c) ∧ SpellsAll features text') := by
  cases spells with
  | alone isType =>
      have isRest := dropType?_word isType (show wordEnds [] from rfl)
      rw [List.append_nil] at isRest
      exact ⟨[], isRest, .inl ⟨rfl, rfl⟩⟩
  | @withFeatures _ word before joining after text' isType beforeBlank present isAnd afterBlank
      spells =>
      refine ⟨_, dropType?_word isType (wordEnds_of_isBlank beforeBlank present _),
        .inr ⟨joining, after, text', ?_, isAnd, afterBlank, spells⟩⟩
      rw [trimStart_append_of_blanks beforeBlank, isAnd.trimStart_append]

end SpellsTyped

theorem SpellsAll.exists_cons {features : List Feature} {text : List Char}
    (spells : SpellsAll features text) : ∃ rest, text = '(' :: rest := by
  obtain ⟨insides, joined, -⟩ := spells
  exact joined.exists_cons

theorem SpellsAll.isTrimmed {features : List Feature} {text : List Char}
    (spells : SpellsAll features text) : IsTrimmed text := by
  obtain ⟨insides, joined, -⟩ := spells
  exact joined.isTrimmed

/-- A word before a group is not there. -/
theorem SpellsAll.dropStartFolded?_eq_none {features : List Feature} {text : List Char}
    (spells : SpellsAll features text) (name : String) (letters : name.toList.all Char.isLower)
    (nonempty : name.toList ≠ []) : dropStartFolded? name.toList text = none := by
  obtain ⟨rest, rfl⟩ := spells.exists_cons
  exact dropStartFolded?_opening letters nonempty rest

/-! ## The condition that stands for a query -/

/-- A text stands for features: it is empty if there are none, or states them. -/
def StandsFor (features : List Feature) (text : List Char) : Prop :=
  features = [] ∧ text = [] ∨ StatesAll features text

theorem standsFor_of_dropTypeClause {features : List Feature} {query text : List Char}
    (spells : SpellsAll features text) (dropped : dropTypeClause query = text) :
    StandsFor features (conditionOf query) := by
  have nonempty : text.isEmpty = false := by
    obtain ⟨rest, rfl⟩ := spells.exists_cons
    rfl
  refine .inr ?_
  simp only [conditionOf, dropped, trim_of_isTrimmed spells.isTrimmed, nonempty]
  exact spells.statesAll

theorem SpellsAll.standsFor {features : List Feature} {text : List Char}
    (spells : SpellsAll features text) : StandsFor features (conditionOf text) := by
  refine standsFor_of_dropTypeClause spells ?_
  have isStart : Text.trimStart text = text := trimStart_of_head spells.isTrimmed.1
  have notOnly := spells.dropStartFolded?_eq_none "only" (by decide) (by decide)
  have notAll := spells.dropStartFolded?_eq_none "all" (by decide) (by decide)
  have notScreen := spells.dropStartFolded?_eq_none "screen" (by decide) (by decide)
  have notPrint := spells.dropStartFolded?_eq_none "print" (by decide) (by decide)
  simp only [dropTypeClause, isStart, dropWordAndBlanks?, Media.dropType?, dropWord?, notOnly,
    notAll, notScreen, notPrint, Option.bind_none, Option.filter_none, Option.or_none]

/-- If a type is found in a query, then what stands for the query stands for what is asked for
beside the type. -/
theorem SpellsTyped.standsFor {type : MediaType} {features : List Feature}
    {text query : List Char} (spells : SpellsTyped type features text)
    (isTyped : ((dropWordAndBlanks? "only" (Text.trimStart query)).bind Media.dropType?).or
      (Media.dropType? (Text.trimStart query)) = Media.dropType? text) :
    StandsFor features (conditionOf query) := by
  obtain ⟨rest, dropped, ⟨rfl, rfl⟩ | ⟨joining, after, text', isStart, isAnd, afterBlank, all⟩⟩ :=
    spells.dropType?
  · rw [dropped] at isTyped
    refine .inl ⟨rfl, ?_⟩
    simp only [conditionOf, dropTypeClause, isTyped, trimStart_nil]
    rfl
  · rw [dropped] at isTyped
    have ends : wordEnds (after ++ text') := by
      obtain ⟨rest, rfl⟩ := all.exists_cons
      cases after with
      | nil => exact (by decide : (!isWordChar '(') = true)
      | cons c after => exact wordEnds_of_isBlank afterBlank (List.cons_ne_nil c after) _
    refine standsFor_of_dropTypeClause all ?_
    simp only [dropTypeClause, isTyped, isStart, isAnd.dropWord?_same ends]
    rw [trimStart_append_of_blanks afterBlank, trimStart_of_head all.isTrimmed.1]

theorem SpellsTyped.standsFor_typed {type : MediaType} {features : List Feature}
    {text : List Char} (spells : SpellsTyped type features text) :
    StandsFor features (conditionOf text) := by
  refine spells.standsFor ?_
  have notOnly := spells.dropWordAndBlanks?_eq_none "only" (by decide) (by decide)
    fun type => by cases type <;> decide
  rw [spells.trimStart, notOnly]
  rfl

theorem SpellsTyped.standsFor_onlyTyped {type : MediaType} {features : List Feature}
    {word blanks text : List Char} (isOnly : IsWord "only" word)
    (areBlank : ∀ c ∈ blanks, isBlank c) (present : blanks ≠ [])
    (spells : SpellsTyped type features text) :
    StandsFor features (conditionOf (word ++ (blanks ++ text))) := by
  refine spells.standsFor ?_
  obtain ⟨rest, dropped, -⟩ := spells.dropType?
  rw [isOnly.trimStart_append, isOnly.dropWordAndBlanks?_same areBlank present, spells.trimStart,
    Option.bind_some, dropped]
  rfl

/-! ## What a query applies to -/

/-- A query without `not` applies to screens unless it names print. -/
theorem appliesToScreen_of_names {text : List Char} {type : MediaType}
    (notNegated : dropNot? text = none)
    (isNamed : ∀ other : MediaType, names text other.name ↔ type = other) :
    appliesToScreen (String.ofList text) = (type != .print) := by
  have isAll := isNamed .all
  have isScreen := isNamed .screen
  have isPrint := isNamed .print
  simp only [MediaType.name] at isAll isScreen isPrint
  rw [appliesToScreen, String.toList_ofList, notNegated]
  cases type <;> simp_all

/-- Groups name no type. -/
theorem SpellsAll.names_eq_false {features : List Feature} {text : List Char}
    (spells : SpellsAll features text) (other : MediaType) : names text other.name = false := by
  obtain ⟨insides, joined, -⟩ := spells
  rw [names, ← Bool.not_eq_true, List.contains_iff_mem]
  intro member
  have isAnd := joined.outerWords _ member
  revert isAnd
  cases other <;> decide

theorem SpellsAll.appliesToScreen {features : List Feature} {text : List Char}
    (spells : SpellsAll features text) :
    dropNot? text = none ∧ Media.appliesToScreen (String.ofList text) := by
  have notNot := spells.dropStartFolded?_eq_none "not" (by decide) (by decide)
  have notNegated : dropNot? text = none := by
    rw [dropNot?, trimStart_of_head spells.isTrimmed.1, dropWordAndBlanks?, notNot]
  have notPrint := spells.names_eq_false .print
  rw [MediaType.name] at notPrint
  refine ⟨notNegated, ?_⟩
  simp [Media.appliesToScreen, notNegated, notPrint]

theorem SpellsTyped.appliesToScreen {type : MediaType} {features : List Feature}
    {text : List Char} (spells : SpellsTyped type features text) :
    dropNot? text = none ∧
      Media.appliesToScreen (String.ofList text) = (type != .print) := by
  have notNegated : dropNot? text = none := by
    rw [dropNot?, spells.trimStart]
    exact spells.dropWordAndBlanks?_eq_none "not" (by decide) (by decide) fun type => by
      cases type <;> decide
  exact ⟨notNegated, appliesToScreen_of_names notNegated spells.names_iff⟩

theorem SpellsTyped.appliesToScreen_onlyTyped {type : MediaType} {features : List Feature}
    {word blanks text : List Char} (isOnly : IsWord "only" word)
    (areBlank : ∀ c ∈ blanks, isBlank c) (present : blanks ≠ [])
    (spells : SpellsTyped type features text) :
    dropNot? (word ++ (blanks ++ text)) = none ∧
      Media.appliesToScreen (String.ofList (word ++ (blanks ++ text))) = (type != .print) := by
  have notNegated : dropNot? (word ++ (blanks ++ text)) = none := by
    rw [dropNot?, isOnly.trimStart_append]
    exact isOnly.dropWordAndBlanks?_other (by decide) (by decide) (by decide) _
  refine ⟨notNegated, appliesToScreen_of_names notNegated fun other => ?_⟩
  have notOnly : other.name.toList ≠ "only".toList := by cases other <;> decide
  have isWords : Media.outerWords (word ++ (blanks ++ text)) =
      "only".toList :: Media.outerWords text := by
    rw [outerWords_word isOnly (endsWord_blanks_of_nonempty areBlank present text),
      outerWords_blanks areBlank]
  rw [← spells.names_iff, names, names, isWords, List.contains_iff_mem, List.contains_iff_mem,
    List.mem_cons]
  exact or_iff_right notOnly

theorem dropNot?_not {word blanks text : List Char} (isNot : IsWord "not" word)
    (areBlank : ∀ c ∈ blanks, isBlank c) (present : blanks ≠ []) :
    dropNot? (word ++ (blanks ++ text)) = some (trimStart text) := by
  rw [dropNot?, isNot.trimStart_append, isNot.dropWordAndBlanks?_same areBlank present]

end ContainerPreview.Media
