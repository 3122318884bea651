import ContainerPreview.Media.Query
import ContainerPreview.Proofs.Media.Bound
import ContainerPreview.Proofs.Text.Split

/-!
# Groups joined by `and`

The conditions that are translated are groups in parentheses with `and` between them.  Each
step of the translation leaves such a text, with other insides: bounding comparisons replaces
an inside by the insides that say the same, and squeezing squeezes it.
-/

namespace ContainerPreview.Media

open Text Value

/-- A text joins groups with the given insides by `and`, in any case of letters and with blanks
around it. -/
inductive Joined : List (List Char) → List Char → Prop where
  | single {inside : List Char} (noGroup : ∀ c ∈ inside, isUngrouped c) :
      Joined [inside] ('(' :: (inside ++ [')']))
  | cons {inside before word after : List Char} {insides : List (List Char)} {text : List Char}
      (noGroup : ∀ c ∈ inside, isUngrouped c) (beforeBlank : ∀ c ∈ before, isBlank c)
      (isAnd : lowerAscii word = "and".toList) (afterBlank : ∀ c ∈ after, isBlank c)
      (later : Joined insides text) :
      Joined (inside :: insides) ('(' :: (inside ++ ')' :: (before ++ (word ++ (after ++ text)))))

namespace Joined

variable {insides insides' : List (List Char)} {text text' : List Char}

theorem exists_cons (joined : Joined insides text) : ∃ rest, text = '(' :: rest := by
  cases joined with
  | single => exact ⟨_, rfl⟩
  | cons => exact ⟨_, rfl⟩

theorem exists_concat (joined : Joined insides text) : ∃ start, text = start ++ [')'] := by
  induction joined with
  | @single inside => exact ⟨'(' :: inside, rfl⟩
  | @cons inside before word after _ _ _ _ _ _ _ inductionHypothesis =>
      obtain ⟨start, rfl⟩ := inductionHypothesis
      exact ⟨'(' :: (inside ++ ')' :: (before ++ (word ++ (after ++ start)))), by simp⟩

theorem isTrimmed (joined : Joined insides text) : IsTrimmed text := by
  constructor
  · obtain ⟨rest, rfl⟩ := joined.exists_cons
    rintro c isHead
    obtain rfl : '(' = c := Option.some.inj isHead
    decide
  · obtain ⟨start, rfl⟩ := joined.exists_concat
    intro c isLast
    rw [List.getLast?_concat] at isLast
    obtain rfl : ')' = c := Option.some.inj isLast
    decide

/-- Two such texts can be joined. -/
theorem append (joined : Joined insides text) (joined' : Joined insides' text')
    {before word after : List Char} (beforeBlank : ∀ c ∈ before, isBlank c)
    (isAnd : lowerAscii word = "and".toList) (afterBlank : ∀ c ∈ after, isBlank c) :
    Joined (insides ++ insides') (text ++ (before ++ (word ++ (after ++ text')))) := by
  induction joined with
  | @single inside noGroup =>
      have whole := Joined.cons noGroup beforeBlank isAnd afterBlank joined'
      simpa using whole
  | cons noGroup beforeBlank' isAnd' afterBlank' _ inductionHypothesis =>
      have whole := Joined.cons noGroup beforeBlank' isAnd' afterBlank' inductionHypothesis
      simpa using whole

/-! ## Reading -/

theorem exists_of_isAnd {word : List Char} (isAnd : lowerAscii word = "and".toList) :
    ∃ a n d, word = [a, n, d] := by
  have isLength := congrArg List.length isAnd
  rw [lowerAscii, List.length_map] at isLength
  match word, isLength with
  | [a, n, d], _ => exact ⟨a, n, d, rfl⟩

/-- The letters of `and` are letters. -/
theorem isAlpha_of_lowerAscii {word : List Char} {name : String}
    (isName : name.toList.all Char.isLower) (isWord : lowerAscii word = name.toList) :
    ∀ c ∈ word, c.isAlpha := by
  intro c member
  have inName : c.toLower ∈ name.toList := isWord ▸ List.mem_map_of_mem member
  have isLower := List.all_eq_true.mp isName _ inName
  rcases toNat_toLower c with same | isUpper
  · rw [same] at isLower
    exact isAlpha_of_isLower isLower
  · exact forall_ascii (fun c => 65 ≤ c.toNat ∧ c.toNat ≤ 90 → c.isAlpha) (by decide)
      (by omega) isUpper

theorem notBlank_of_isAlpha {c : Char} (isAlpha : c.isAlpha) : isBlank c = false := by
  cases blank : isBlank c with
  | false => rfl
  | true =>
      have isName := (class_of_isAlpha isAlpha).1
      rw [(notNumber_of_isSeparator (isSeparator_of_isBlank blank)).1] at isName
      cases isName

theorem dropAnd?_join {before word after : List Char} (beforeBlank : ∀ c ∈ before, isBlank c)
    (isAnd : lowerAscii word = "and".toList) (afterBlank : ∀ c ∈ after, isBlank c)
    (joined : Joined insides text) :
    dropAnd? (before ++ (word ++ (after ++ text))) = some text := by
  obtain ⟨a, n, d, rfl⟩ := exists_of_isAnd isAnd
  have isAlpha := isAlpha_of_lowerAscii (by decide) isAnd a List.mem_cons_self
  have isStart : trimStart (before ++ ([a, n, d] ++ (after ++ text))) =
      a :: n :: d :: (after ++ text) := by
    rw [trimStart_append_of_blanks beforeBlank]
    exact trimStart_of_head fun c isHead => by
      obtain rfl : a = c := Option.some.inj isHead
      exact notBlank_of_isAlpha isAlpha
  rw [dropAnd?, isStart]
  simp only [isAnd, if_true]
  rw [trimStart_append_of_blanks afterBlank, trimStart_of_head joined.isTrimmed.1]

/-- The insides of the groups are read from the text. -/
theorem conjuncts? (joined : Joined insides text) : conjuncts? text = some insides := by
  induction joined with
  | single noGroup => exact conjuncts?_group noGroup []
  | @cons inside before word after _ text noGroup beforeBlank isAnd afterBlank later
      inductionHypothesis =>
      have nonempty : (before ++ (word ++ (after ++ text))).isEmpty = false := by
        obtain ⟨a, n, d, rfl⟩ := exists_of_isAnd isAnd
        simp
      rw [conjuncts?_group noGroup, nonempty, dropAnd?_join beforeBlank isAnd afterBlank later]
      simp [inductionHypothesis]

/-! ## Changing groups -/

/-- A group with no other group in it is changed as a whole. -/
theorem mapGroups_group (change : List Char → List Char) {inside : List Char}
    (noGroup : ∀ c ∈ inside, isUngrouped c) (after : List Char) :
    mapGroups change ('(' :: (inside ++ ')' :: after)) = change inside ++ mapGroups change after := by
  obtain ⟨isInside, isRest⟩ := ungrouped_parts noGroup after
  rw [mapGroups, if_pos (beq_self_eq_true '(')]
  split
  · rename_i same
    rw [isRest, List.cons.injEq] at same
    rw [isInside, same.2]
  · rename_i notClosed
    exact absurd isRest (notClosed after)

theorem mapGroups_append (change : List Char → List Char) {text : List Char}
    (noOpening : ∀ c ∈ text, c ≠ '(') (rest : List Char) :
    mapGroups change (text ++ rest) = text ++ mapGroups change rest := by
  induction text with
  | nil => rfl
  | cons c text inductionHypothesis =>
      obtain ⟨notOpening, noOpening⟩ := List.forall_mem_cons.mp noOpening
      rw [List.cons_append, mapGroups, if_neg (by simpa using notOpening),
        inductionHypothesis noOpening]
      rfl

theorem mapGroups_nil (change : List Char → List Char) : mapGroups change [] = [] := by
  rw [mapGroups]

theorem ne_opening_of_isBlank {c : Char} (blank : isBlank c) : c ≠ '(' := by
  rintro rfl
  cases blank

theorem ne_opening_of_isAlpha {c : Char} (isAlpha : c.isAlpha) : c ≠ '(' := by
  rintro rfl
  revert isAlpha
  decide

/-- What stands between two groups is kept when groups are changed. -/
theorem mapGroups_join (change : List Char → List Char) {before word after : List Char}
    (beforeBlank : ∀ c ∈ before, isBlank c) (isAnd : lowerAscii word = "and".toList)
    (afterBlank : ∀ c ∈ after, isBlank c) (rest : List Char) :
    mapGroups change (before ++ (word ++ (after ++ rest))) =
      before ++ (word ++ (after ++ mapGroups change rest)) := by
  have isAlpha := isAlpha_of_lowerAscii (by decide) isAnd
  rw [mapGroups_append change fun c member => ne_opening_of_isBlank (beforeBlank c member),
    mapGroups_append change fun c member => ne_opening_of_isAlpha (isAlpha c member),
    mapGroups_append change fun c member => ne_opening_of_isBlank (afterBlank c member)]

theorem writeMin_eq (name value : List Char) :
    Comparison.writeMin name value = '(' :: (namedBound false name value ++ [')']) := by
  have isOpened : "(min-".toList = '(' :: "min-".toList := by decide
  refine (congrArg (· ++ name ++ ": ".toList ++ value ++ [')']) isOpened).trans ?_
  simp only [namedBound, boundName, List.cons_append, Bool.false_eq_true, if_false]

theorem writeMax_eq (name value : List Char) :
    Comparison.writeMax name value = '(' :: (namedBound true name value ++ [')']) := by
  have isOpened : "(max-".toList = '(' :: "max-".toList := by decide
  refine (congrArg (· ++ name ++ ": ".toList ++ value ++ [')']) isOpened).trans ?_
  simp only [namedBound, boundName, List.cons_append, if_true]

/-- The insides that take the place of an inside are joined in its place. -/
theorem boundGroup {inside : List Char}
    (noGroup : ∀ bound ∈ boundInsides inside, ∀ c ∈ bound, isUngrouped c) :
    Joined (boundInsides inside) (boundGroup inside) := by
  unfold boundInsides at noGroup ⊢
  unfold Media.boundGroup
  cases isParsed : Comparison.parse? inside with
  | none =>
      simp only [isParsed] at noGroup
      exact .single (noGroup inside List.mem_cons_self)
  | some comparison =>
      cases comparison with
      | lowerBound name value =>
          simp only [isParsed, List.forall_mem_singleton, Comparison.write, writeMin_eq]
            at noGroup ⊢
          exact .single noGroup
      | upperBound name value =>
          simp only [isParsed, List.forall_mem_singleton, Comparison.write, writeMax_eq]
            at noGroup ⊢
          exact .single noGroup
      | between low name high =>
          simp only [isParsed, List.forall_mem_cons] at noGroup
          have isHigh := Joined.single noGroup.2.1
          have whole : Joined [_, _] ('(' :: (_ ++ ')' :: ([' '] ++ ("and".toList ++ ([' '] ++ _))))) :=
            .cons noGroup.1 (by decide) (by decide) (by decide) isHigh
          simpa [Comparison.write, writeMin_eq, writeMax_eq] using whole

theorem boundComparisons (joined : Joined insides text)
    (noGroup : ∀ inside ∈ insides, ∀ bound ∈ boundInsides inside, ∀ c ∈ bound, isUngrouped c) :
    Joined (insides.flatMap boundInsides) (boundComparisons text) := by
  induction joined with
  | @single inside here =>
      have ofGroup := mapGroups_group Media.boundGroup here []
      rw [mapGroups_nil, List.append_nil] at ofGroup
      rw [Media.boundComparisons, ofGroup, List.flatMap_singleton]
      exact boundGroup (noGroup inside List.mem_cons_self)
  | @cons inside _ _ _ _ _ here beforeBlank isAnd afterBlank _ inductionHypothesis =>
      obtain ⟨ofInside, ofRest⟩ := List.forall_mem_cons.mp noGroup
      rw [Media.boundComparisons, mapGroups_group Media.boundGroup here,
        mapGroups_join Media.boundGroup beforeBlank isAnd afterBlank, List.flatMap_cons]
      exact (boundGroup ofInside).append (inductionHypothesis ofRest) beforeBlank isAnd afterBlank

/-- Squeezing goes from group to group. -/
theorem squeeze (joined : Joined insides text) :
    Joined (insides.map Text.squeeze) (Text.squeeze text) := by
  have ofInside : ∀ {inside : List Char}, (∀ c ∈ inside, isUngrouped c) →
      ∀ c ∈ Text.squeeze inside, isUngrouped c := fun noGroup c member => by
    rcases mem_squeezeFrom member with inInside | rfl
    · exact noGroup c inInside
    · decide
  have ofGroup : ∀ inside after, Text.squeeze ('(' :: (inside ++ ')' :: after)) =
      '(' :: (Text.squeeze inside ++ ')' :: Text.squeeze after) := fun inside after => by
    have isStart := squeezeFrom_append false [] (c := '(') (by decide) (inside ++ ')' :: after)
    rw [List.nil_append] at isStart
    rw [Text.squeeze, isStart, squeezeFrom_append false inside (by decide)]
    rfl
  induction joined with
  | single noGroup =>
      rw [ofGroup]
      exact .single (ofInside noGroup)
  | @cons inside before word after insides text noGroup beforeBlank isAnd afterBlank later
      inductionHypothesis =>
      obtain ⟨a, n, d, rfl⟩ := exists_of_isAnd isAnd
      have isAlpha := isAlpha_of_lowerAscii (by decide) isAnd
      have noBlank : ∀ c ∈ [a, n, d], isBlank c = false := fun c member =>
        notBlank_of_isAlpha (isAlpha c member)
      have nonempty : text ≠ [] := by
        obtain ⟨rest, rfl⟩ := later.exists_cons
        exact List.cons_ne_nil _ _
      have ofAfter : Text.squeeze (after ++ text) = Text.squeeze after ++ Text.squeeze text :=
        squeezeFrom_append_of_head false after nonempty later.isTrimmed.1
      have ofWord : Text.squeeze ([a, n, d] ++ (after ++ text)) =
          [a, n, d] ++ Text.squeeze (after ++ text) := by
        rw [Text.squeeze, squeezeFrom_append_of_last false (List.cons_ne_nil a _)
          (fun c isLast => noBlank c (List.mem_of_getLast? isLast)),
          squeezeFrom_of_noBlank false noBlank]
      have ofBefore : Text.squeeze (before ++ ([a, n, d] ++ (after ++ text))) =
          Text.squeeze before ++ Text.squeeze ([a, n, d] ++ (after ++ text)) :=
        squeezeFrom_append_of_head false before (List.cons_ne_nil a _) fun c isHead => by
          obtain rfl : a = c := Option.some.inj isHead
          exact noBlank a List.mem_cons_self
      rw [ofGroup, ofBefore, ofWord, ofAfter]
      exact .cons (ofInside noGroup) (squeezeFrom_of_blanks false beforeBlank) isAnd
        (squeezeFrom_of_blanks false afterBlank) inductionHypothesis

/-! ## Negation -/

theorem closingFrom_group {inside : List Char} (noGroup : ∀ c ∈ inside, isUngrouped c)
    (after : List Char) : closingFrom 1 (inside ++ ')' :: after) = some inside.length := by
  induction inside with
  | nil => rfl
  | cons c inside inductionHypothesis =>
      obtain ⟨here, later⟩ := List.forall_mem_cons.mp noGroup
      simp only [isUngrouped, Bool.and_eq_true, bne_iff_ne] at here
      rw [List.cons_append, closingFrom, if_neg (by simp [here.1]), if_neg (by simp [here.2]),
        inductionHypothesis later]
      rfl

theorem closingParen?_group {inside : List Char} (noGroup : ∀ c ∈ inside, isUngrouped c)
    (after : List Char) :
    closingParen? ('(' :: (inside ++ ')' :: after)) 0 = some (inside.length + 1) := by
  rw [closingParen?, List.drop_zero, closingFrom, if_pos (beq_self_eq_true '('), Int.zero_add,
    closingFrom_group noGroup after]
  simp

/-- Outside its groups a text joined by `and` has no negation. -/
theorem negated?_eq_none (joined : Joined insides text) : negated? text = none := by
  have notNegation : ∀ {inside after : List Char}, (∀ c ∈ inside, isUngrouped c) →
      negated? ('(' :: (inside ++ ')' :: after)) = none := fun {inside after} noGroup => by
    unfold negated?
    split
    · rename_i rest dropped
      have same : '(' :: (inside ++ ')' :: after) = "(not ".toList ++ '(' :: rest :=
        dropStart?_eq_some_iff.mp dropped
      have sameTail : inside ++ ')' :: after = "not ".toList ++ '(' :: rest :=
        (List.cons.inj same).2
      have isClosing := (ungrouped_parts noGroup after).2
      rw [sameTail, List.dropWhile_append_of_pos (by decide),
        List.dropWhile_cons_of_neg (by decide)] at isClosing
      cases isClosing
    · rfl
  cases joined with
  | single noGroup => exact notNegation noGroup
  | cons noGroup => exact notNegation noGroup

theorem negated?_negation (rest : List Char) :
    negated? ("(not ".toList ++ '(' :: rest ++ [')']) = some ('(' :: rest) := by
  have dropped : dropStart? "(not ".toList ("(not ".toList ++ '(' :: rest ++ [')']) =
      some ('(' :: (rest ++ [')'])) :=
    dropStart?_eq_some_iff.mpr (List.append_assoc ..)
  rw [negated?, dropped]
  simp

/-- A single group is negated as it is. -/
theorem negate_single {inside : List Char} (joined : Joined [inside] text) :
    negate text = "(not ".toList ++ text ++ [')'] := by
  cases joined with
  | single noGroup =>
      have isWhole : closingParen? ('(' :: (inside ++ [')'])) 0 ==
          some (('(' :: (inside ++ [')'])).length - 1) := by
        rw [closingParen?_group noGroup []]
        simp
      rw [negate, isWhole]
      rfl
  | cons _ _ _ _ later => cases later

/-- Several groups are negated in parentheses of their own. -/
theorem negate_several {first second : List Char}
    (joined : Joined (first :: second :: insides) text) :
    negate text = "(not (".toList ++ text ++ "))".toList := by
  cases joined with
  | @cons _ before word after _ text noGroup _ _ _ later =>
      obtain ⟨rest, rfl⟩ := later.exists_cons
      have notWhole : (closingParen? ('(' :: (first ++ ')' :: (before ++ (word ++ (after ++
          '(' :: rest))))) 0 == some (('(' :: (first ++ ')' :: (before ++ (word ++ (after ++
            '(' :: rest))))).length - 1)) = false := by
        rw [closingParen?_group noGroup, beq_eq_false_iff_ne]
        simp only [List.length_cons, List.length_append, ne_eq, Option.some.injEq]
        omega
      rw [negate, notWhole, Bool.and_false]
      rfl

/-! ## Reading features -/

/-- The features that have been spelled are read. -/
theorem mapM_readFeature? {features : List Feature} {insides : List (List Char)}
    (spells : List.Forall₂ Feature.Spells features insides) :
    insides.mapM Media.readFeature? = some features := by
  induction spells with
  | nil => rfl
  | cons here _ inductionHypothesis =>
      rw [List.mapM_cons, here.readFeature?, inductionHypothesis]
      rfl

theorem readFeatures? (joined : Joined insides text) {features : List Feature}
    (spells : List.Forall₂ Feature.Spells features insides) :
    readFeatures? text = some features := by
  rw [Media.readFeatures?, joined.conjuncts?]
  exact mapM_readFeature? spells

theorem readCondition? (joined : Joined insides text) {features : List Feature}
    (spells : List.Forall₂ Feature.Spells features insides) :
    readCondition? text = some (.all features) := by
  rw [Media.readCondition?, joined.negated?_eq_none, joined.readFeatures? spells]
  rfl

/-- A negated text is read as the negation of what it was before. -/
theorem readCondition?_negate (joined : Joined insides text) {features : List Feature}
    (spells : List.Forall₂ Feature.Spells features insides) :
    Media.readCondition? (negate text) = some (.notAll features) := by
  cases joined with
  | @single inside noGroup =>
      have joined := Joined.single noGroup
      cases spells with
      | cons here none =>
          cases none
          rw [joined.negate_single, Media.readCondition?, negated?_negation]
          simp [joined.conjuncts?, here.readFeature?]
  | @cons inside before word after insides text noGroup beforeBlank isAnd afterBlank later =>
      have joined := Joined.cons noGroup beforeBlank isAnd afterBlank later
      generalize '(' :: (inside ++ ')' :: (before ++ (word ++ (after ++ text)))) = whole at joined
      obtain ⟨second, others, rfl⟩ : ∃ second others, insides = second :: others := by
        cases later with
        | single => exact ⟨_, _, rfl⟩
        | cons => exact ⟨_, _, rfl⟩
      have isWrapped : "(not (".toList ++ whole ++ "))".toList =
          "(not ".toList ++ '(' :: (whole ++ [')']) ++ [')'] := by
        simp
      have noConjuncts : Media.conjuncts? ('(' :: (whole ++ [')'])) = none := by
        obtain ⟨rest, rfl⟩ := joined.exists_cons
        rw [List.cons_append, Media.conjuncts?]
        simp [isUngrouped]
      have isUnwrapped : unwrap? ('(' :: (whole ++ [')'])) = some whole := by
        simp [unwrap?]
      rw [joined.negate_several, isWrapped, Media.readCondition?, negated?_negation]
      simp only [noConjuncts, isUnwrapped, Option.bind_some, joined.readFeatures? spells,
        Option.map_some]

end Joined

end ContainerPreview.Media
