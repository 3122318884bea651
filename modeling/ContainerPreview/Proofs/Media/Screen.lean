import ContainerPreview.Media.Conditions
import ContainerPreview.Proofs.Media.Query

/-!
# Media lists on screens

A media list is translated to nothing, to an empty list or to conditions.  Translated to
nothing it never holds on a screen, translated to an empty list it always does, and otherwise
it holds exactly if one of the conditions does.
-/

namespace ContainerPreview.Media

open Text Value

/-! ## One query -/

/-- A verdict is right about a query. -/
def Verdict.IsRight (query : Query) : Verdict → Prop
  | .always => ∀ {α : Type} [LE α] (assignment : Assignment α), query.HoldsOnScreen assignment
  | .never => ∀ {α : Type} [LE α] (assignment : Assignment α), ¬ query.HoldsOnScreen assignment
  | .under text =>
      ∃ condition, readCondition? text.toList = some condition ∧
        ∀ {α : Type} [LE α] (assignment : Assignment α),
          condition.Holds assignment ↔ query.HoldsOnScreen assignment

theorem StatesAll.nonempty {features : List Feature} {text : List Char}
    (states : StatesAll features text) : text.isEmpty = false := by
  obtain ⟨stated, spells, -⟩ := states
  obtain ⟨rest, rfl⟩ := spells.exists_cons
  rfl

theorem StatesAll.readCondition? {features : List Feature} {text : List Char}
    (states : StatesAll features text) :
    ∃ stated, Media.readCondition? text = some (.all stated) ∧
      Media.readCondition? (negate text) = some (.notAll stated) ∧
        ∀ {α : Type} [LE α] (assignment : Assignment α),
          HoldAll assignment stated ↔ HoldAll assignment features := by
  obtain ⟨stated, ⟨insides, joined, spells⟩, same⟩ := states
  exact ⟨stated, joined.readCondition? spells, joined.readCondition?_negate spells, same⟩

theorem value_translateQuery (text : List Char) :
    (translateQuery (String.ofList text)).value = String.ofList (conditionOf text) := by
  rw [translateQuery, Traced.value_bind, Traced.value_pure, String.toList_ofList]

theorem isEmpty_ofList (text : List Char) : (String.ofList text).isEmpty = text.isEmpty := by
  cases text <;> simp

/-- A query without `not` holds always if no condition stands for it, and else under that
condition. -/
theorem value_judge {text : List Char} (notNegated : dropNot? text = none) :
    (judge (String.ofList text)).value =
      if (conditionOf text).isEmpty then .always
      else .under (String.ofList (conditionOf text)) := by
  rw [judge, String.toList_ofList, notNegated, Traced.value_bind, Traced.value_pure,
    value_translateQuery, isEmpty_ofList]

theorem value_judgeNegated (query : String) (text : List Char) :
    (judgeNegated query text).value =
      if names text "print" then .always
      else if (conditionOf text).isEmpty then .never
      else .under (String.ofList (negate (conditionOf text))) := by
  rw [judgeNegated]
  split
  · rfl
  · rw [Traced.value_bind, value_translateQuery, isEmpty_ofList, String.toList_ofList]
    split <;> rfl

theorem judge_isRight {text : List Char} {type : MediaType} {features : List Feature}
    (notNegated : dropNot? text = none) (onScreen : type ≠ .print)
    (standsFor : StandsFor features (conditionOf text)) :
    (judge (String.ofList text)).value.IsRight ⟨false, type, features⟩ := by
  rw [value_judge notNegated]
  generalize conditionOf text = condition at standsFor
  rcases standsFor with ⟨rfl, rfl⟩ | states
  · intro α _ assignment
    simp [Query.HoldsOnScreen, HoldAll, onScreen]
  · obtain ⟨stated, isRead, -, same⟩ := states.readCondition?
    rw [states.nonempty]
    refine ⟨.all stated, by rwa [String.toList_ofList], fun assignment => ?_⟩
    simp [Query.HoldsOnScreen, Condition.Holds, onScreen, same assignment]

theorem judgeNegated_isRight {text : List Char} {type : MediaType} {features : List Feature}
    (query : String) (isPrint : names text "print" ↔ type = .print)
    (standsFor : StandsFor features (conditionOf text)) :
    (judgeNegated query text).value.IsRight ⟨true, type, features⟩ := by
  rw [value_judgeNegated]
  generalize conditionOf text = condition at standsFor
  split
  · rename_i isNamed
    intro α _ assignment
    simp [Query.HoldsOnScreen, isPrint.mp isNamed]
  · rename_i notNamed
    have onScreen : type ≠ .print := fun same => notNamed (isPrint.mpr same)
    rcases standsFor with ⟨rfl, rfl⟩ | states
    · intro α _ assignment
      simp [Query.HoldsOnScreen, HoldAll, onScreen]
    · obtain ⟨stated, -, isRead, same⟩ := states.readCondition?
      rw [states.nonempty]
      refine ⟨.notAll stated, by rwa [String.toList_ofList], fun assignment => ?_⟩
      simp [Query.HoldsOnScreen, Condition.Holds, onScreen, same assignment]

/-- A query that does not apply to screens never holds on one, and the verdict on any other
query is right. -/
theorem Query.Spells.isRight {query : Query} {text : List Char} (spells : query.Spells text) :
    if appliesToScreen (String.ofList text) then
      (judge (String.ofList text)).value.IsRight query
    else Verdict.never.IsRight query := by
  have ofType : ∀ {type : MediaType} {features : List Feature} {text : List Char},
      dropNot? text = none → appliesToScreen (String.ofList text) = (type != .print) →
        StandsFor features (conditionOf text) →
          if appliesToScreen (String.ofList text) then
            (judge (String.ofList text)).value.IsRight ⟨false, type, features⟩
          else Verdict.never.IsRight ⟨false, type, features⟩ :=
    fun {type features text} notNegated applies standsFor => by
      rw [applies]
      split
      · rename_i onScreen
        exact judge_isRight notNegated (by simpa using onScreen) standsFor
      · rename_i onPaper
        intro α _ assignment
        have isPrint : type = .print := by simpa using onPaper
        simp [Query.HoldsOnScreen, isPrint]
  have ofNot : ∀ {type : MediaType} {features : List Feature} {word blanks text : List Char},
      IsWord "not" word → (∀ c ∈ blanks, isBlank c) → blanks ≠ [] → trimStart text = text →
        (names text "print" ↔ type = .print) → StandsFor features (conditionOf text) →
          if appliesToScreen (String.ofList (word ++ (blanks ++ text))) then
            (judge (String.ofList (word ++ (blanks ++ text)))).value.IsRight ⟨true, type, features⟩
          else Verdict.never.IsRight ⟨true, type, features⟩ :=
    fun {type features word blanks text} isNot areBlank present isStart isPrint standsFor => by
      have isNegated : dropNot? (word ++ (blanks ++ text)) = some text := by
        rw [dropNot?_not isNot areBlank present, isStart]
      have applies : appliesToScreen (String.ofList (word ++ (blanks ++ text))) := by
        rw [appliesToScreen, String.toList_ofList, isNegated]
        rfl
      rw [if_pos applies, judge, String.toList_ofList, isNegated]
      exact judgeNegated_isRight _ isPrint standsFor
  cases spells with
  | features spells =>
      obtain ⟨notNegated, applies⟩ := spells.appliesToScreen
      exact ofType notNegated applies spells.standsFor
  | typed spells =>
      obtain ⟨notNegated, applies⟩ := spells.appliesToScreen
      exact ofType notNegated applies spells.standsFor_typed
  | onlyTyped isOnly areBlank present spells =>
      obtain ⟨notNegated, applies⟩ := spells.appliesToScreen_onlyTyped isOnly areBlank present
      exact ofType notNegated applies (spells.standsFor_onlyTyped isOnly areBlank present)
  | notTyped isNot areBlank present spells =>
      exact ofNot isNot areBlank present spells.trimStart (spells.names_iff .print)
        spells.standsFor_typed
  | notGroup isNot areBlank present spells =>
      refine ofNot isNot areBlank present (trimStart_of_head spells.isTrimmed.1) ?_
        spells.standsFor
      have notPrint := spells.names_eq_false .print
      rw [MediaType.name] at notPrint
      rw [notPrint]
      simp

/-! ## The queries of a list -/

/-- Some query of the list always holds on a screen. -/
def AlwaysHolds (queries : List Query) : Prop :=
  ∀ {α : Type} [LE α] (assignment : Assignment α), AnyHoldsOnScreen assignment queries

/-- No query of the list ever holds on a screen. -/
def NeverHolds (queries : List Query) : Prop :=
  ∀ {α : Type} [LE α] (assignment : Assignment α), ¬ AnyHoldsOnScreen assignment queries

/-- Conditions of which one holds exactly if a query of the list does on a screen. -/
def StatesAny (queries : List Query) (texts : List String) : Prop :=
  ∃ conditions : List Condition, texts.map (readCondition? ·.toList) = conditions.map some ∧
    ∀ {α : Type} [LE α] (assignment : Assignment α),
      (∃ condition ∈ conditions, condition.Holds assignment) ↔
        AnyHoldsOnScreen assignment queries

/-- What has been gathered is right about a list. -/
def GathersRight (queries : List Query) : Option (List String) → Prop
  | none => AlwaysHolds queries
  | some texts => StatesAny queries texts

theorem anyHoldsOnScreen_cons {α : Type} [LE α] (assignment : Assignment α) (query : Query)
    (queries : List Query) :
    AnyHoldsOnScreen assignment (query :: queries) ↔
      query.HoldsOnScreen assignment ∨ AnyHoldsOnScreen assignment queries := by
  simp [AnyHoldsOnScreen]

theorem GathersRight.skip {query : Query} {queries : List Query} {gathered : Option (List String)}
    (right : GathersRight queries gathered) (never : Verdict.never.IsRight query) :
    GathersRight (query :: queries) gathered := by
  have same : ∀ {α : Type} [LE α] (assignment : Assignment α),
      AnyHoldsOnScreen assignment (query :: queries) ↔ AnyHoldsOnScreen assignment queries :=
    fun assignment => by
      rw [anyHoldsOnScreen_cons]
      exact or_iff_right (never assignment)
  cases gathered with
  | none =>
      intro α _ assignment
      exact (same assignment).mpr (right assignment)
  | some texts =>
      obtain ⟨conditions, areRead, states⟩ := right
      exact ⟨conditions, areRead, fun assignment => (states assignment).trans (same assignment).symm⟩

theorem GathersRight.cons {query : Query} {queries : List Query}
    {gathered : Option (List String)} {text : String} (right : GathersRight queries gathered)
    (under : (Verdict.under text).IsRight query) :
    GathersRight (query :: queries) (gathered.map (text :: ·)) := by
  cases gathered with
  | none =>
      intro α _ assignment
      exact (anyHoldsOnScreen_cons assignment query queries).mpr (.inr (right assignment))
  | some texts =>
      obtain ⟨condition, isRead, statesOne⟩ := under
      obtain ⟨conditions, areRead, states⟩ := right
      refine ⟨condition :: conditions, ?_, fun assignment => ?_⟩
      · rw [List.map_cons, List.map_cons, isRead, areRead]
      · rw [anyHoldsOnScreen_cons, List.exists_mem_cons_iff, statesOne, states]

theorem value_gather_cons (query : String) (queries : List String) :
    (gather none (query :: queries)).value =
      if appliesToScreen query then
        match (judge query).value with
        | .always => none
        | .never => (gather none queries).value
        | .under condition => (gather none queries).value.map (condition :: ·)
      else (gather none queries).value := by
  rw [gather]
  cases appliesToScreen query with
  | false => rfl
  | true =>
      simp only [Bool.not_true, Bool.false_eq_true, if_false, if_true, Traced.value_bind,
        applyHook, Traced.value_pure]
      cases (judge query).value <;> rfl

/-- What is gathered from the queries of a list is right about them. -/
theorem gathersRight {queries : List Query} {texts : List (List Char)}
    (spells : List.Forall₂ Query.Spells queries texts) :
    GathersRight queries (gather none (texts.map String.ofList)).value := by
  induction spells with
  | nil => exact ⟨[], rfl, fun assignment => by simp [AnyHoldsOnScreen]⟩
  | @cons query text queries texts here _ inductionHypothesis =>
      have isRight := here.isRight
      rw [List.map_cons, value_gather_cons]
      split at isRight
      · rename_i applies
        rw [if_pos applies]
        cases isVerdict : (judge (String.ofList text)).value with
        | always =>
            rw [isVerdict] at isRight
            intro α _ assignment
            exact (anyHoldsOnScreen_cons assignment query queries).mpr (.inl (isRight assignment))
        | never =>
            rw [isVerdict] at isRight
            exact inductionHypothesis.skip isRight
        | under condition =>
            rw [isVerdict] at isRight
            exact inductionHypothesis.cons isRight
      · rename_i notApplies
        rw [if_neg notApplies]
        exact inductionHypothesis.skip isRight

/-! ## Splitting a list -/

/-- A text that a scan goes over from its start and back to its start. -/
def IsPart (text : List Char) : Prop :=
  isWhole ',' text ∧ Text.Balanced text

theorem IsPart.append {left right : List Char} (isLeft : IsPart left) (isRight : IsPart right) :
    IsPart (left ++ right) := by
  refine ⟨?_, isLeft.2.append isRight.2⟩
  rw [isWhole_append isLeft.2, Bool.and_eq_true]
  exact ⟨isLeft.1, isRight.1⟩

/-- Over characters that are not special a scan stays where it is. -/
theorem after_of_notSpecial {scan : Scan} (plain : scan.quote = none)
    (closers : ∀ c ∈ scan.closers.head?, c = ')') {text : List Char}
    (notSpecial : ∀ c ∈ text, c ∉ "()[]\"',".toList) :
    scan.passes ',' text ∧ scan.after text = scan := by
  induction text with
  | nil => exact ⟨rfl, rfl⟩
  | cons c text inductionHypothesis =>
      obtain ⟨here, notSpecial⟩ := List.forall_mem_cons.mp notSpecial
      have different : ∀ s ∈ "()[]\"',".toList, c ≠ s := fun s member same => here (same ▸ member)
      have noQuote : (c == '\'' || c == '"') = false := by
        simp [different '\'' (by decide), different '"' (by decide)]
      have noOpening : closerOf? c = none := by
        simp [closerOf?, different '(' (by decide), different '[' (by decide)]
      have noCloser : (scan.closers.head? == some c) = false := by
        rw [beq_eq_false_iff_ne]
        exact fun isHead => different ')' (by decide) (closers c isHead)
      have stays : scan.step c = scan := by
        simp [Scan.step, plain, noQuote, noOpening, noCloser]
      have noSplit : scan.splitsAt ',' c = false := by
        simp [Scan.splitsAt, different ',' (by decide)]
      rw [Scan.passes, Scan.after_cons, stays, noSplit]
      exact inductionHypothesis notSpecial

theorem isPart_of_notSpecial {text : List Char} (notSpecial : ∀ c ∈ text, c ∉ "()[]\"',".toList) :
    IsPart text :=
  after_of_notSpecial rfl (by simp [Scan.start]) notSpecial

theorem isPart_blanks {blanks : List Char} (areBlank : ∀ c ∈ blanks, isBlank c) : IsPart blanks :=
  isPart_of_notSpecial fun c member =>
    notSpecial_of_class (.inl (class_of_isBlank (areBlank c member)).1)

theorem IsWord.isPart {word : String} {text : List Char} (isWord : IsWord word text) :
    IsPart text := by
  refine isPart_of_notSpecial fun c member special => ?_
  have isAlpha := isWord.isAlpha c member
  have notAlpha : ∀ s ∈ "()[]\"',".toList, s.isAlpha = false := by decide
  rw [notAlpha c special] at isAlpha
  cases isAlpha

theorem isPart_group {inside : List Char} (notSpecial : ∀ c ∈ inside, c ∉ "()[]\"',".toList) :
    IsPart ('(' :: (inside ++ [')'])) := by
  have opened : Scan.start.step '(' = { closers := [')'] } := by decide
  obtain ⟨passes, stays⟩ : Scan.passes ',' { closers := [')'] } inside ∧
      Scan.after { closers := [')'] } inside = { closers := [')'] } :=
    after_of_notSpecial rfl (by simp) notSpecial
  constructor
  · rw [isWhole, Scan.passes, opened, Scan.passes_append, passes, stays]
    decide
  · rw [Text.Balanced, Scan.after_cons, opened, Scan.after_append, stays]
    decide

theorem SpellsAll.isPart {features : List Feature} {text : List Char}
    (spells : SpellsAll features text) : IsPart text := by
  obtain ⟨insides, joined, spelled⟩ := spells
  induction joined generalizing features with
  | single =>
      cases spelled with
      | cons here _ => exact isPart_group fun c member => notSpecial_of_class (here.class_of_mem c member)
  | @cons inside before word after insides text noGroup beforeBlank isAnd afterBlank _
      inductionHypothesis =>
      cases spelled with
      | cons here later =>
          have isGroup := isPart_group fun c member =>
            notSpecial_of_class (here.class_of_mem c member)
          have whole := isGroup.append ((isPart_blanks beforeBlank).append
            ((isWord_and isAnd).isPart.append ((isPart_blanks afterBlank).append
              (inductionHypothesis later))))
          simpa using whole

theorem SpellsTyped.isPart {type : MediaType} {features : List Feature} {text : List Char}
    (spells : SpellsTyped type features text) : IsPart text := by
  cases spells with
  | alone isType => exact isType.isPart
  | withFeatures isType beforeBlank _ isAnd afterBlank all =>
      exact isType.isPart.append ((isPart_blanks beforeBlank).append
        (isAnd.isPart.append ((isPart_blanks afterBlank).append all.isPart)))

theorem Query.Spells.isPart {query : Query} {text : List Char} (spells : query.Spells text) :
    IsPart text := by
  cases spells with
  | features all => exact all.isPart
  | typed typed => exact typed.isPart
  | onlyTyped isOnly areBlank _ typed =>
      exact isOnly.isPart.append ((isPart_blanks areBlank).append typed.isPart)
  | notTyped isNot areBlank _ typed =>
      exact isNot.isPart.append ((isPart_blanks areBlank).append typed.isPart)
  | notGroup isNot areBlank _ all =>
      exact isNot.isPart.append ((isPart_blanks areBlank).append all.isPart)

/-- Blanks around a part do not matter. -/
theorem isPart_of_trim {text : List Char} (isPart : IsPart (trim text)) : IsPart text := by
  obtain ⟨left, right, same, leftBlank, rightBlank⟩ := exists_append_trim text
  rw [same]
  exact ((isPart_blanks leftBlank).append isPart).append (isPart_blanks rightBlank)

/-- Parts between commas are split again. -/
theorem splitTopLevel_parts {part : List Char} {parts : List (List Char)}
    (areParts : ∀ each ∈ part :: parts, IsPart each) :
    splitTopLevel ',' ([','].intercalate (part :: parts)) = part :: parts := by
  induction parts generalizing part with
  | nil =>
      rw [List.intercalate_singleton, splitTopLevel]
      exact splitFrom_of_passes (areParts part List.mem_cons_self).1
  | cons later parts inductionHypothesis =>
      obtain ⟨isFirst, areParts⟩ := List.forall_mem_cons.mp areParts
      have back : Scan.start.after part = Scan.start := isFirst.2
      have splits : (Scan.start.after part).splitsAt ',' ',' = true := by
        rw [back]
        decide
      have ofLater := inductionHypothesis areParts
      rw [splitTopLevel] at ofLater
      rw [List.intercalate_cons_cons, List.append_assoc, List.singleton_append, splitTopLevel,
        splitFrom_append isFirst.1 splits, back, ofLater]

theorem Query.Spells.nonempty {query : Query} {text : List Char} (spells : query.Spells text) :
    text.isEmpty = false := by
  have ofWord : ∀ {word : String} {text : List Char}, IsWord word text → ∀ rest,
      (text ++ rest).isEmpty = false := fun isWord rest => by
    obtain ⟨c, others, rfl, -⟩ := isWord.exists_cons
    rfl
  cases spells with
  | features all =>
      obtain ⟨rest, rfl⟩ := all.exists_cons
      rfl
  | typed typed =>
      obtain ⟨word, rest, rfl, isType⟩ := typed.exists_word
      exact ofWord isType rest
  | onlyTyped isOnly => exact ofWord isOnly _
  | notTyped isNot => exact ofWord isNot _
  | notGroup isNot => exact ofWord isNot _

/-- Queries with commas between them, and blanks around them, spell a media list. -/
def SpellsList (queries : List Query) (params : List Char) : Prop :=
  ∃ parts, params = [','].intercalate parts ∧
    List.Forall₂ (fun query part => query.Spells (trim part)) queries parts

/-- The queries of a list are what has been spelled for them. -/
theorem SpellsList.splitQueries {queries : List Query} {params : List Char}
    (spells : SpellsList queries params) :
    ∃ texts, Media.splitQueries (String.ofList params) = texts.map String.ofList ∧
      List.Forall₂ Query.Spells queries texts := by
  obtain ⟨parts, rfl, spelled⟩ := spells
  refine ⟨parts.map trim, ?_, List.forall₂_map_right_iff.mpr spelled⟩
  have areParts : ∀ part ∈ parts, IsPart part ∧ (!(trim part).isEmpty) = true := by
    induction spelled with
    | nil => simp
    | cons here _ inductionHypothesis =>
        refine List.forall_mem_cons.mpr ⟨⟨isPart_of_trim here.isPart, ?_⟩, inductionHypothesis⟩
        rw [here.nonempty]
        rfl
  have kept : (parts.map trim).filter (!·.isEmpty) = parts.map trim :=
    List.filter_eq_self.mpr (List.forall_mem_map.mpr fun part member => (areParts part member).2)
  rw [Media.splitQueries, String.toList_ofList]
  cases parts with
  | nil => rfl
  | cons part parts =>
      rw [splitTopLevel_parts fun each member => (areParts each member).1, kept]

/-! ## Translation -/

/-- What a list is translated to keeps its meaning on screens. -/
def KeepsMeaning (queries : List Query) : Option (List String) → Prop
  | none => NeverHolds queries
  | some [] => AlwaysHolds queries
  | some texts => StatesAny queries texts

/-- A media list keeps its meaning on screens: it is translated to nothing only if it never
holds, to no conditions only if it always does, and else to conditions of which one holds
exactly if it does. -/
theorem conditions_keepsMeaning {queries : List Query} {params : String}
    (spells : SpellsList queries params.toList) :
    KeepsMeaning queries (conditions none params).value := by
  obtain ⟨texts, areQueries, spelled⟩ := spells.splitQueries
  rw [String.ofList_toList] at areQueries
  have isRight := gathersRight spelled
  rw [conditions, Traced.value_bind, areQueries]
  cases isGathered : (gather none (texts.map String.ofList)).value with
  | none =>
      rw [isGathered] at isRight
      intro α _ assignment
      exact isRight assignment
  | some alternatives =>
      rw [isGathered] at isRight
      cases alternatives with
      | nil =>
          obtain ⟨stated, areRead, states⟩ := isRight
          obtain rfl : stated = [] := List.map_eq_nil_iff.mp areRead.symm
          intro α _ assignment holds
          obtain ⟨condition, member, -⟩ := (states assignment).mpr holds
          cases member
      | cons first others => exact isRight

/-- A list of a negated query, a query for print and a query for all media. -/
theorem conditions_keepsMeaning_mixedList :
    SpellsList
        [⟨true, .screen, [.atLeast "width".toList "4px".toList]⟩, ⟨false, .print, []⟩,
          ⟨false, .all, [.flag "color".toList]⟩]
        "not Screen and ( 4px <width), ONLY print,(color)".toList ∧
      KeepsMeaning
        [⟨true, .screen, [.atLeast "width".toList "4px".toList]⟩, ⟨false, .print, []⟩,
          ⟨false, .all, [.flag "color".toList]⟩]
        (conditions none "not Screen and ( 4px <width), ONLY print,(color)").value := by
  have isWidth : trim "width".toList = "width".toList := by decide
  have isLeast : normal " 4px ".toList = "4px".toList := by decide
  have isColor : trim "color".toList = "color".toList := by decide
  have range : Feature.Spells (.bound (!true) (trim "width".toList) (normal " 4px ".toList))
      (" 4px ".toList ++ ("<".toList ++ "width".toList)) :=
    .valueFirst (by decide) (by decide) (by decide)
  have flag : Feature.Spells (.flag (trim "color".toList)) "color".toList := .flag (by decide)
  rw [isWidth, isLeast] at range
  rw [isColor] at flag
  have isScreen : SpellsTyped .screen [.atLeast "width".toList "4px".toList]
      ("Screen".toList ++ (" ".toList ++ ("and".toList ++ (" ".toList ++ _)))) :=
    .withFeatures ⟨by decide, by decide, by decide⟩ (by decide) (by decide)
      ⟨by decide, by decide, by decide⟩ (by decide) ⟨_, .single (by decide), .cons range .nil⟩
  have isPrint : SpellsTyped .print [] "print".toList := .alone ⟨by decide, by decide, by decide⟩
  have isFlag : SpellsAll [.flag "color".toList] _ := ⟨_, .single (by decide), .cons flag .nil⟩
  have first : Query.Spells ⟨true, .screen, _⟩ ("not".toList ++ (" ".toList ++ _)) :=
    .notTyped ⟨by decide, by decide, by decide⟩ (by decide) (by decide) isScreen
  have second : Query.Spells ⟨false, .print, _⟩ ("ONLY".toList ++ (" ".toList ++ _)) :=
    .onlyTyped ⟨by decide, by decide, by decide⟩ (by decide) (by decide) isPrint
  have third := Query.Spells.features isFlag
  have isFirst : trim "not Screen and ( 4px <width)".toList = "not".toList ++ (" ".toList ++
      ("Screen".toList ++ (" ".toList ++ ("and".toList ++ (" ".toList ++
        '(' :: (" 4px ".toList ++ ("<".toList ++ "width".toList) ++ [')'])))))) := by decide
  have isSecond : trim " ONLY print".toList = "ONLY".toList ++ (" ".toList ++ "print".toList) := by
    decide
  have isThird : trim "(color)".toList = '(' :: ("color".toList ++ [')']) := by decide
  rw [← isFirst] at first
  rw [← isSecond] at second
  rw [← isThird] at third
  have spells : SpellsList
      [⟨true, .screen, [.atLeast "width".toList "4px".toList]⟩, ⟨false, .print, []⟩,
        ⟨false, .all, [.flag "color".toList]⟩]
      "not Screen and ( 4px <width), ONLY print,(color)".toList :=
    ⟨["not Screen and ( 4px <width)".toList, " ONLY print".toList, "(color)".toList],
      by decide, .cons first (.cons second (.cons third .nil))⟩
  exact ⟨spells,
    @conditions_keepsMeaning _ "not Screen and ( 4px <width), ONLY print,(color)" spells⟩

end ContainerPreview.Media
