import ContainerPreview.Proofs.Media.Formula
import ContainerPreview.Proofs.Media.Screen

/-!
# Formulas stated by named bounds

Translating a query bounds the comparisons of its innermost groups, wherever these stand in
the formula of the query.  A group takes the place of a group, with one exception: a
comparison between two values is stated by two groups with `and` between them and no
parentheses around them.  Where such a comparison stands by itself or under `and` the formula
keeps its meaning; under `not` or beside `or` the text is no formula any more.
-/

namespace ContainerPreview.Media

open Text Value

/-! ## Comparisons that are stated by two groups -/

/-- The feature is stated by two groups. -/
def Feature.splits : Feature → Bool
  | .between _ name _ => isFeatureName name
  | _ => false

/-- The formula is a feature that is stated by two groups. -/
def Formula.splits : Formula → Bool
  | .feature asked => asked.splits
  | _ => false

/-- No feature that is stated by two groups stands right under a negation or beside `or`. -/
def Formula.splitsUnderAnd : Formula → Bool
  | .feature _ => true
  | .group inner => inner.splitsUnderAnd
  | .negation inner => !inner.splits && inner.splitsUnderAnd
  | .joined joint left right =>
      (joint == .both || !left.splits && !right.splits) && left.splitsUnderAnd &&
        right.splitsUnderAnd

/-- Only a comparison that encloses a feature is read as one between two values. -/
theorem Feature.Spells.splits_of_parse? {feature : Feature} {inside : List Char}
    (spells : feature.Spells inside) {low name high : List Char}
    (isParsed : Comparison.parse? inside = some (.between low name high)) : feature.splits := by
  have notSides : ∀ left relation right,
      Comparison.ofSides? left relation right ≠ some (.between low name high) := by
    intro left relation right
    unfold Comparison.ofSides?
    split_ifs <;> simp
  have ofEnclosing : ∀ {left relation middle relation' right},
      Comparison.enclosing? left relation middle relation' right = some (.between low name high) →
        isFeatureName (trim middle) = true := by
    intro left relation middle relation' right enclosing
    unfold Comparison.enclosing? at enclosing
    split at enclosing
    · rename_i encloses
      simp only [Bool.and_eq_true] at encloses
      exact encloses.1.1.1
    · cases enclosing
  cases spells with
  | flag isName =>
      rw [parse?_value isName.isValue] at isParsed
      cases isParsed
  | plain isName isValue =>
      rw [parse?_value (List.forall_mem_append.mpr
        ⟨isName.isValue, List.forall_mem_cons.mpr ⟨by decide, isValue⟩⟩)] at isParsed
      cases isParsed
  | nameFirst isName isSign isNumeric =>
      obtain ⟨relation, -, ofSides⟩ := parse?_comparison isName.isValue isSign isNumeric.1
      exact absurd (ofSides.symm.trans isParsed) (notSides _ relation _)
  | valueFirst isNumeric isSign isName =>
      obtain ⟨relation, -, ofSides⟩ := parse?_comparison isNumeric.1 isSign isName.isValue
      exact absurd (ofSides.symm.trans isParsed) (notSides _ relation _)
  | ascending isLow isFirst isName isSecond isHigh =>
      obtain ⟨c, isHead, -⟩ := isName.2
      obtain ⟨relation, relation', -, -, encloses⟩ := parse?_enclosing isLow.1 isFirst
        isName.isValue (by simpa using nonempty_of_trim isHead) isSecond isHigh.1
      exact ofEnclosing (encloses.symm.trans isParsed)
  | descending isHigh isFirst isName isSecond isLow =>
      obtain ⟨c, isHead, -⟩ := isName.2
      obtain ⟨relation, relation', -, -, encloses⟩ := parse?_enclosing isHigh.1 isFirst
        isName.isValue (by simpa using nonempty_of_trim isHead) isSecond isLow.1
      exact ofEnclosing (encloses.symm.trans isParsed)

/-- One group takes the place of a group, or two with `and` between them if it encloses a
feature. -/
theorem boundGroup_eq (inside : List Char) :
    (∃ bound, boundInsides inside = [bound] ∧ boundGroup inside = '(' :: (bound ++ [')'])) ∨
      ∃ low high, boundInsides inside = [low, high] ∧
        boundGroup inside =
          '(' :: (low ++ [')']) ++ (" and ".toList ++ '(' :: (high ++ [')'])) ∧
        ∃ least name greatest, Comparison.parse? inside = some (.between least name greatest) := by
  unfold boundInsides boundGroup
  cases Comparison.parse? inside with
  | none => exact .inl ⟨inside, rfl, rfl⟩
  | some comparison =>
      cases comparison with
      | lowerBound name value => exact .inl ⟨_, rfl, Joined.writeMin_eq name value⟩
      | upperBound name value => exact .inl ⟨_, rfl, Joined.writeMax_eq name value⟩
      | between low name high =>
          refine .inr ⟨_, _, rfl, ?_, low, name, high, rfl⟩
          simp only [Comparison.write, Joined.writeMin_eq, Joined.writeMax_eq, List.append_assoc]

/-! ## Formulas that say the same -/

/-- A text spells a formula at a level, one that holds whenever the given one does and only
then. -/
def Formula.StatedAt (formula : Formula) (level : Level) (text : List Char) : Prop :=
  ∃ statement : Formula, statement.Spells level text ∧ statement.Equivalent formula

namespace Formula

variable {formula other inner left right : Formula} {level : Level} {text text' between : List Char}

theorem Spells.statedAt (spells : formula.Spells level text) : formula.StatedAt level text :=
  ⟨formula, spells, Equivalent.refl formula⟩

namespace StatedAt

theorem congr (stated : formula.StatedAt level text) (same : formula.Equivalent other) :
    other.StatedAt level text := by
  obtain ⟨statement, spells, same'⟩ := stated
  exact ⟨statement, spells, same'.trans same⟩

theorem nested (stated : inner.StatedAt .whole text) {before after : List Char}
    (beforeBlank : ∀ c ∈ before, isBlank c) (afterBlank : ∀ c ∈ after, isBlank c) :
    (Formula.group inner).StatedAt .group ('(' :: (before ++ (text ++ (after ++ [')'])))) := by
  obtain ⟨statement, spells, same⟩ := stated
  exact ⟨_, .nested beforeBlank spells afterBlank, same.group⟩

theorem single (stated : formula.StatedAt .group text) (isChain : level ≠ .group) :
    formula.StatedAt level text := by
  obtain ⟨statement, spells, same⟩ := stated
  exact ⟨statement, .single isChain spells, same⟩

theorem joined {joint : Joint} (joins : joint ∈ level.joints)
    (statedLeft : left.StatedAt .group text) (isJoint : joint.Spells between)
    (statedRight : right.StatedAt (.chain joint) text') :
    (Formula.joined joint left right).StatedAt level (text ++ (between ++ text')) := by
  obtain ⟨first, spellsFirst, sameFirst⟩ := statedLeft
  obtain ⟨second, spellsSecond, sameSecond⟩ := statedRight
  exact ⟨_, .joined joins spellsFirst isJoint spellsSecond, sameFirst.joined joint sameSecond⟩

theorem negation {word blanks : List Char} (isNot : IsWord "not" word)
    (areBlank : ∀ c ∈ blanks, isBlank c) (present : blanks ≠ [])
    (stated : inner.StatedAt .group text) :
    (Formula.negation inner).StatedAt .whole (word ++ (blanks ++ text)) := by
  obtain ⟨statement, spells, same⟩ := stated
  exact ⟨_, .negation isNot areBlank present spells, same.negation⟩

end StatedAt

/-- A chain can be continued by a chain under the same connective. -/
theorem Spells.append {joint : Joint} (spells : formula.Spells (.chain joint) text)
    (isJoint : joint.Spells between) (spells' : other.Spells (.chain joint) text')
    (joins : joint ∈ level.joints) :
    (Formula.joined joint formula other).StatedAt level (text ++ (between ++ text')) := by
  generalize isLevel : Level.chain joint = start at spells
  induction spells generalizing level with
  | feature => cases isLevel
  | nested => cases isLevel
  | negation => cases isLevel
  | single _ spells => exact (Spells.joined joins spells isJoint spells').statedAt
  | @joined left right _ joint' _ between' _ joins' spellsLeft isJoint' _ _ ofRight =>
      subst isLevel
      obtain rfl : joint' = joint := List.mem_singleton.mp joins'
      have later : (Formula.joined joint' right other).StatedAt (.chain joint') _ :=
        ofRight (List.mem_singleton.mpr rfl) rfl
      have whole := (StatedAt.joined joins spellsLeft.statedAt isJoint' later).congr
        (Equivalent.joined_assoc joint' left right other)
      simpa only [List.append_assoc] using whole

theorem StatedAt.append {joint : Joint} (stated : formula.StatedAt (.chain joint) text)
    (isJoint : joint.Spells between) (stated' : other.StatedAt (.chain joint) text')
    (joins : joint ∈ level.joints) :
    (Formula.joined joint formula other).StatedAt level (text ++ (between ++ text')) := by
  obtain ⟨first, spellsFirst, sameFirst⟩ := stated
  obtain ⟨second, spellsSecond, sameSecond⟩ := stated'
  exact (spellsFirst.append isJoint spellsSecond joins).congr (sameFirst.joined joint sameSecond)

end Formula

/-! ## Bounding the comparisons of a formula -/

theorem spells_and : Joint.both.Spells " and ".toList := by
  have spelled : Joint.both.Spells ([' '] ++ ("and".toList ++ [' '])) :=
    .word (by decide) ⟨by decide, by decide, by decide⟩ (by decide) (by decide)
  have same : [' '] ++ ("and".toList ++ [' ']) = " and ".toList := by decide
  rwa [same] at spelled

/-- The level at which a formula is stated: two groups are a chain. -/
def Level.widened (level : Level) (splits : Bool) : Level :=
  if splits then .chain .both else level

theorem Level.widened_chain (splits : Bool) :
    (Level.chain .both).widened splits = .chain .both := by
  cases splits <;> rfl

theorem Feature.Spells.statedAt_boundGroup {feature : Feature} {inside : List Char}
    (spells : feature.Spells inside) :
    (Formula.feature feature).StatedAt (Level.group.widened feature.splits) (boundGroup inside) := by
  obtain ⟨features, areSpelled, same⟩ := sameMeaning_boundInsides spells
  rcases boundGroup_eq inside with
    ⟨bound, isBound, isGroup⟩ | ⟨low, high, areBounds, isGroup, least, name, greatest, isParsed⟩
  · rw [isBound] at areSpelled
    obtain ⟨stated, others, spellsStated, none, rfl⟩ := List.forall₂_cons_right_iff.mp areSpelled
    obtain rfl := List.forall₂_nil_right_iff.mp none
    have asGroup : (Formula.feature feature).StatedAt .group (boundGroup inside) := by
      rw [isGroup]
      exact ⟨_, .feature spellsStated, fun assignment => by
        rw [Formula.Holds, Formula.Holds, ← same assignment, HoldAll, List.forall_mem_singleton]⟩
    unfold Level.widened
    split
    · exact asGroup.single (by decide)
    · exact asGroup
  · rw [areBounds] at areSpelled
    obtain ⟨lower, rest, spellsLower, areRest, rfl⟩ := List.forall₂_cons_right_iff.mp areSpelled
    obtain ⟨upper, others, spellsUpper, none, rfl⟩ := List.forall₂_cons_right_iff.mp areRest
    obtain rfl := List.forall₂_nil_right_iff.mp none
    rw [isGroup, spells.splits_of_parse? isParsed]
    refine ⟨.joined .both (.feature lower) (.feature upper),
      .joined (by decide) (.feature spellsLower) spells_and
        (.single (by decide) (.feature spellsUpper)), fun assignment => ?_⟩
    rw [Formula.Holds, Formula.Holds, Formula.Holds, Formula.Holds, ← same assignment, HoldAll,
      List.forall_mem_cons, List.forall_mem_singleton]

theorem Formula.widened_of_not_splits {formula : Formula} (notSplit : formula.splits = false)
    (level : Level) : level.widened formula.splits = level := by
  rw [notSplit]
  rfl

theorem Formula.StatedAt.chain_of_widened {formula : Formula} {text : List Char}
    (stated : formula.StatedAt (Level.group.widened formula.splits) text) :
    formula.StatedAt (.chain .both) text := by
  unfold Level.widened at stated
  split at stated
  · exact stated
  · exact stated.single (by decide)

/-- A chain is a whole formula. -/
theorem Formula.Spells.whole {joint : Joint} {formula : Formula} {text : List Char}
    (spells : formula.Spells (.chain joint) text) : formula.Spells .whole text := by
  cases spells with
  | single _ spells => exact .single (by decide) spells
  | @joined _ _ _ joint' _ _ _ _ spellsLeft isJoint spellsRight =>
      exact .joined (by cases joint' <;> decide) spellsLeft isJoint spellsRight

theorem Formula.StatedAt.whole_of_widened {formula : Formula} {text : List Char}
    (stated : formula.StatedAt (Level.whole.widened formula.splits) text) :
    formula.StatedAt .whole text := by
  unfold Level.widened at stated
  split at stated
  · obtain ⟨statement, spells, same⟩ := stated
    exact ⟨statement, spells.whole, same⟩
  · exact stated

/-- Groups are changed one after another: up to the end of what has been spelled, changing them
does not depend on what follows. -/
def StatedByBounds (formula : Formula) (level : Level) (text : List Char) : Prop :=
  ∃ text', formula.StatedAt level text' ∧
    ∀ rest, mapGroups boundGroup (text ++ rest) = text' ++ mapGroups boundGroup rest

theorem mapGroups_joint (change : List Char → List Char) {joint : Joint} {between : List Char}
    (isJoint : joint.Spells between) (rest : List Char) :
    mapGroups change (between ++ rest) = between ++ mapGroups change rest := by
  refine Joined.mapGroups_append change ?_ rest
  obtain ⟨beforeBlank, isWord, afterBlank, -⟩ := isJoint
  simp only [List.forall_mem_append]
  exact ⟨fun c member => Joined.ne_opening_of_isBlank (beforeBlank c member),
    fun c member => Joined.ne_opening_of_isAlpha (isWord.isAlpha c member),
    fun c member => Joined.ne_opening_of_isBlank (afterBlank c member)⟩

/-- Parentheses with a group in them are kept. -/
theorem mapGroups_nested (change : List Char → List Char) {front : List Char}
    (areUngrouped : ∀ c ∈ front, isUngrouped c) (rest : List Char) :
    mapGroups change ('(' :: (front ++ '(' :: rest)) =
      '(' :: mapGroups change (front ++ '(' :: rest) := by
  have isOpening : (front ++ '(' :: rest).dropWhile isUngrouped = '(' :: rest := by
    rw [List.dropWhile_append_of_pos areUngrouped, List.dropWhile_cons_of_neg (by decide)]
  rw [mapGroups, if_pos (beq_self_eq_true '(')]
  split
  · rename_i isClosing
    rw [isOpening] at isClosing
    cases isClosing
  · rfl

/-- Bounding the comparisons of a formula states it, at the level where it stands unless it is
a single comparison between two values. -/
theorem Formula.Spells.statedByBounds {formula : Formula} {level : Level} {text : List Char}
    (spells : formula.Spells level text) (underAnd : formula.splitsUnderAnd) :
    StatedByBounds formula (level.widened formula.splits) text := by
  induction spells with
  | feature spells =>
      refine ⟨_, spells.statedAt_boundGroup, fun rest => ?_⟩
      rw [List.cons_append, List.append_assoc]
      exact Joined.mapGroups_group boundGroup spells.isUngrouped rest
  | @nested inner before text after beforeBlank spells afterBlank inductionHypothesis =>
      obtain ⟨text', stated, isChanged⟩ := inductionHypothesis underAnd
      refine ⟨_, stated.whole_of_widened.nested beforeBlank afterBlank, fun rest => ?_⟩
      obtain ⟨front, opened, isOpened, areUngrouped, -⟩ := spells.exists_opening
      have areUngrouped' : ∀ c ∈ before ++ front, isUngrouped c :=
        List.forall_mem_append.mpr
          ⟨fun c member => isUngrouped_of_isBlank (beforeBlank c member), areUngrouped⟩
      have isKept := mapGroups_nested boundGroup areUngrouped' (opened ++ (after ++ ')' :: rest))
      have isInside : before ++ front ++ '(' :: (opened ++ (after ++ ')' :: rest)) =
          before ++ (text ++ (after ++ ([')'] ++ rest))) := by
        simp [isOpened]
      have ofBefore := Joined.mapGroups_append boundGroup
        (fun c member => Joined.ne_opening_of_isBlank (beforeBlank c member))
      have ofAfter := Joined.mapGroups_append boundGroup
        (fun c member => Joined.ne_opening_of_isBlank (afterBlank c member))
      have ofClosing := Joined.mapGroups_append boundGroup
        (show ∀ c ∈ [')'], c ≠ '(' by decide) rest
      rw [isInside, ofBefore, isChanged, ofAfter, ofClosing] at isKept
      simpa only [List.cons_append, List.append_assoc] using isKept
  | @single formula level text isChain spells inductionHypothesis =>
      obtain ⟨text', stated, isChanged⟩ := inductionHypothesis underAnd
      refine ⟨text', ?_, isChanged⟩
      cases isSplit : formula.splits with
      | true =>
          rw [isSplit] at stated
          exact stated
      | false =>
          rw [isSplit] at stated
          exact stated.single isChain
  | @joined left right level joint text between text' joins spellsLeft isJoint spellsRight
      ofLeft ofRight =>
      simp only [splitsUnderAnd, Bool.and_eq_true] at underAnd
      obtain ⟨⟨mayJoin, leftUnderAnd⟩, rightUnderAnd⟩ := underAnd
      obtain ⟨first, statedFirst, isFirst⟩ := ofLeft leftUnderAnd
      obtain ⟨second, statedSecond, isSecond⟩ := ofRight rightUnderAnd
      refine ⟨first ++ (between ++ second), ?_, fun rest => ?_⟩
      · cases joint with
        | both =>
            rw [Level.widened_chain] at statedSecond
            exact statedFirst.chain_of_widened.append isJoint statedSecond joins
        | either =>
            obtain ⟨leftWhole, rightWhole⟩ : left.splits = false ∧ right.splits = false := by
              simpa using mayJoin
            rw [widened_of_not_splits leftWhole] at statedFirst
            rw [widened_of_not_splits rightWhole] at statedSecond
            exact .joined joins statedFirst isJoint statedSecond
      · rw [List.append_assoc, List.append_assoc, isFirst, mapGroups_joint boundGroup isJoint,
          isSecond, List.append_assoc, List.append_assoc]
  | @negation inner word blanks text isNot areBlank present spells inductionHypothesis =>
      simp only [splitsUnderAnd, Bool.and_eq_true, Bool.not_eq_true'] at underAnd
      obtain ⟨notSplit, innerUnderAnd⟩ := underAnd
      obtain ⟨text', stated, isChanged⟩ := inductionHypothesis innerUnderAnd
      rw [widened_of_not_splits notSplit] at stated
      refine ⟨_, .negation isNot areBlank present stated, fun rest => ?_⟩
      have ofWord := Joined.mapGroups_append boundGroup
        (fun c member => Joined.ne_opening_of_isAlpha (isNot.isAlpha c member))
      have ofBlanks := Joined.mapGroups_append boundGroup
        (fun c member => Joined.ne_opening_of_isBlank (areBlank c member))
      rw [List.append_assoc, List.append_assoc, ofWord, ofBlanks, isChanged]
      simp only [List.append_assoc]

/-- What has been spelled for a formula states it when its comparisons are bounded. -/
theorem Formula.Spells.statedAt_boundComparisons {formula : Formula} {text : List Char}
    (spells : formula.Spells .whole text) (underAnd : formula.splitsUnderAnd) :
    formula.StatedAt .whole (boundComparisons text) := by
  obtain ⟨text', stated, isChanged⟩ := spells.statedByBounds underAnd
  have whole := isChanged []
  rw [List.append_nil, Joined.mapGroups_nil, List.append_nil] at whole
  rw [boundComparisons, whole]
  exact stated.whole_of_widened

end ContainerPreview.Media
