import ContainerPreview.Proofs.Media.Query

/-!
# Formulas of media features

A formula is built from features in parentheses by `not`, `and`, `or` and parentheses of its
own.  The two connectives do not mix without parentheses, and `not` applies to one group.  A
text is therefore a group, a chain of groups under one connective, or a whole formula, and it
is read as one formula at most: `Formula.Spells` relates a formula to everything that can be
written for it, and `readFormula?` reads a text.
-/

namespace ContainerPreview.Media

open Text Value

/-- A connective of two formulas. -/
inductive Joint where
  | both
  | either
deriving DecidableEq, Repr

/-- The word for a connective. -/
def Joint.name : Joint → String
  | .both => "and"
  | .either => "or"

/-- A formula, with the parentheses that are not those of a feature. -/
inductive Formula where
  | feature (feature : Feature)
  | group (inner : Formula)
  | negation (inner : Formula)
  | joined (joint : Joint) (left right : Formula)
deriving DecidableEq, Repr

/-! ## Meaning -/

section Meaning

variable {α : Type} [LE α]

/-- A formula holds under an assignment. -/
def Formula.Holds (assignment : Assignment α) : Formula → Prop
  | .feature asked => asked.Holds assignment
  | .group inner => inner.Holds assignment
  | .negation inner => ¬ inner.Holds assignment
  | .joined .both left right => left.Holds assignment ∧ right.Holds assignment
  | .joined .either left right => left.Holds assignment ∨ right.Holds assignment

end Meaning

/-- Two formulas hold under the same assignments. -/
def Formula.Equivalent (formula other : Formula) : Prop :=
  ∀ {α : Type} [LE α] (assignment : Assignment α),
    formula.Holds assignment ↔ other.Holds assignment

namespace Formula.Equivalent

variable {formula other third left left' right right' : Formula}

theorem refl (formula : Formula) : formula.Equivalent formula :=
  fun _ => Iff.rfl

theorem trans (same : formula.Equivalent other) (same' : other.Equivalent third) :
    formula.Equivalent third :=
  fun assignment => (same assignment).trans (same' assignment)

theorem group (same : formula.Equivalent other) :
    (Formula.group formula).Equivalent (.group other) :=
  fun assignment => by
    rw [Holds, Holds]
    exact same assignment

theorem negation (same : formula.Equivalent other) :
    (Formula.negation formula).Equivalent (.negation other) :=
  fun assignment => by
    rw [Holds, Holds]
    exact not_congr (same assignment)

theorem joined (joint : Joint) (sameLeft : left.Equivalent left')
    (sameRight : right.Equivalent right') :
    (Formula.joined joint left right).Equivalent (.joined joint left' right') := by
  intro α _ assignment
  cases joint with
  | both =>
      rw [Holds, Holds]
      exact and_congr (sameLeft assignment) (sameRight assignment)
  | either =>
      rw [Holds, Holds]
      exact or_congr (sameLeft assignment) (sameRight assignment)

theorem joined_assoc (joint : Joint) (left right third : Formula) :
    (Formula.joined joint left (.joined joint right third)).Equivalent
      (.joined joint (.joined joint left right) third) := by
  intro α _ assignment
  cases joint with
  | both =>
      simp only [Holds]
      exact and_assoc.symm
  | either =>
      simp only [Holds]
      exact or_assoc.symm

end Formula.Equivalent

/-! ## Spelling -/

/-- Where a formula stands: as a group by itself, in the rest of a chain under one connective,
or with nothing but a parenthesis or an end around it. -/
inductive Level where
  | group
  | chain (joint : Joint)
  | whole
deriving DecidableEq, Repr

/-- The connectives that may follow the first group. -/
def Level.joints : Level → List Joint
  | .group => []
  | .chain joint => [joint]
  | .whole => [.both, .either]

/-- What can be written for a connective.  The blank behind the word keeps it from being the
name of a function. -/
inductive Joint.Spells (joint : Joint) : List Char → Prop where
  | word {before word after : List Char} (beforeBlank : ∀ c ∈ before, isBlank c)
      (isWord : IsWord joint.name word) (afterBlank : ∀ c ∈ after, isBlank c)
      (present : after ≠ []) : Spells joint (before ++ (word ++ after))

/-- What can be written for a formula. -/
inductive Formula.Spells : Formula → Level → List Char → Prop where
  | feature {feature : Feature} {inside : List Char} (spells : feature.Spells inside) :
      Spells (.feature feature) .group ('(' :: (inside ++ [')']))
  | nested {inner : Formula} {before text after : List Char}
      (beforeBlank : ∀ c ∈ before, isBlank c) (spells : Spells inner .whole text)
      (afterBlank : ∀ c ∈ after, isBlank c) :
      Spells (.group inner) .group ('(' :: (before ++ (text ++ (after ++ [')']))))
  | single {formula : Formula} {level : Level} {text : List Char} (isChain : level ≠ .group)
      (spells : Spells formula .group text) : Spells formula level text
  | joined {left right : Formula} {level : Level} {joint : Joint} {text between text' : List Char}
      (joins : joint ∈ level.joints) (spellsLeft : Spells left .group text)
      (isJoint : joint.Spells between) (spellsRight : Spells right (.chain joint) text') :
      Spells (.joined joint left right) level (text ++ (between ++ text'))
  | negation {inner : Formula} {word blanks text : List Char} (isNot : IsWord "not" word)
      (areBlank : ∀ c ∈ blanks, isBlank c) (present : blanks ≠ [])
      (spells : Spells inner .group text) :
      Spells (.negation inner) .whole (word ++ (blanks ++ text))

/-! ## Reading -/

/-- Reads a formula from the start of a text and leaves what follows it. -/
abbrev FormulaReader := List Char → Option (Formula × List Char)

/-- What follows a connective and the blanks around it. -/
def dropJoint? (joint : Joint) (text : List Char) : Option (List Char) :=
  dropWordAndBlanks? joint.name (trimStart text)

/-- The connective that follows, one of the given ones, and what stands behind it. -/
def nextJoint? (joints : List Joint) (text : List Char) : Option (Joint × List Char) :=
  joints.findSome? fun joint => (dropJoint? joint text).map (joint, ·)

/-- What follows a closing parenthesis. -/
def dropClosing? : List Char → Option (List Char)
  | ')' :: after => some after
  | _ => none

/-- Reads a group: a feature, or a formula in parentheses. -/
def readGroup? (readWhole : FormulaReader) : FormulaReader
  | '(' :: rest =>
      match rest.dropWhile isUngrouped with
      | ')' :: after =>
          (readFeature? (rest.takeWhile isUngrouped)).map fun feature => (.feature feature, after)
      | _ => do
          let (inner, later) ← readWhole (trimStart rest)
          let after ← dropClosing? (trimStart later)
          return (.group inner, after)
  | _ => none

/-- Reads a group and, behind one of the connectives, the rest of the chain. -/
def readChain? (readGroup : FormulaReader) (readRest : Joint → FormulaReader)
    (joints : List Joint) : FormulaReader := fun text => do
  let (left, later) ← readGroup text
  match nextJoint? joints later with
  | none => return (left, later)
  | some (joint, more) =>
      let (right, after) ← readRest joint more
      return (.joined joint left right, after)

/-- Reads a formula at a level.  The fuel is spent on levels and groups. -/
def readAt? : Nat → Level → FormulaReader
  | 0, _ => fun _ => none
  | fuel + 1, .group => readGroup? (readAt? fuel .whole)
  | fuel + 1, .chain joint =>
      readChain? (readAt? fuel .group) (fun joint => readAt? fuel (.chain joint)) [joint]
  | fuel + 1, .whole => fun text =>
      match dropWordAndBlanks? "not" text with
      | some negated =>
          (readAt? fuel .group negated).map fun (inner, after) => (.negation inner, after)
      | none =>
          readChain? (readAt? fuel .group) (fun joint => readAt? fuel (.chain joint))
            [.both, .either] text

/-- The fuel that reading a text of some length takes. -/
def Level.fuel : Level → Nat → Nat
  | .group, length => 2 * length + 1
  | _, length => 2 * length + 2

/-- Reads a text as a formula. -/
def readFormula? (text : List Char) : Option Formula :=
  match readAt? (Level.whole.fuel text.length) .whole text with
  | some (formula, []) => some formula
  | _ => none

/-! ## The shape of what has been spelled -/

theorem isUngrouped_of_isAlpha {c : Char} (isAlpha : c.isAlpha) : isUngrouped c := by
  rw [isUngrouped, Bool.and_eq_true, bne_iff_ne, bne_iff_ne]
  refine ⟨Joined.ne_opening_of_isAlpha isAlpha, ?_⟩
  rintro rfl
  revert isAlpha
  decide

theorem isUngrouped_of_isBlank {c : Char} (blank : isBlank c) : isUngrouped c := by
  rw [isUngrouped, Bool.and_eq_true, bne_iff_ne, bne_iff_ne]
  refine ⟨Joined.ne_opening_of_isBlank blank, ?_⟩
  rintro rfl
  cases blank

theorem Joint.letters (joint : Joint) : joint.name.toList.all Char.isLower := by
  cases joint <;> decide

theorem Joint.nonempty (joint : Joint) : joint.name.toList ≠ [] := by
  cases joint <;> decide

namespace Formula.Spells

variable {formula : Formula} {level : Level} {text : List Char}

/-- A group comes first, or a `not`. -/
theorem exists_opening (spells : formula.Spells level text) :
    ∃ front rest, text = front ++ '(' :: rest ∧ (∀ c ∈ front, isUngrouped c) ∧
      ∀ c ∈ text.head?, isBlank c = false := by
  have ofGroup : ∀ rest, ∃ front rest', '(' :: rest = front ++ '(' :: rest' ∧
      (∀ c ∈ front, isUngrouped c) ∧ ∀ c ∈ ('(' :: rest).head?, isBlank c = false := fun rest =>
    ⟨[], rest, rfl, List.forall_mem_nil _, fun c isHead => by
      obtain rfl : '(' = c := Option.some.inj isHead
      decide⟩
  induction spells with
  | feature => exact ofGroup _
  | nested => exact ofGroup _
  | single _ _ inductionHypothesis => exact inductionHypothesis
  | joined _ _ _ _ ofLeft =>
      obtain ⟨front, rest, rfl, areUngrouped, notBlank⟩ := ofLeft
      refine ⟨front, rest ++ _, List.append_assoc .., areUngrouped, fun c isHead => ?_⟩
      rw [List.head?_append_of_ne_nil _ (by simp)] at isHead
      exact notBlank c isHead
  | @negation inner word blanks text isNot areBlank _ _ inductionHypothesis =>
      obtain ⟨front, rest, rfl, areUngrouped, -⟩ := inductionHypothesis
      refine ⟨word ++ (blanks ++ front), rest, by simp, ?_, ?_⟩
      · simp only [List.forall_mem_append]
        exact ⟨fun c member => isUngrouped_of_isAlpha (isNot.isAlpha c member),
          fun c member => isUngrouped_of_isBlank (areBlank c member), areUngrouped⟩
      · obtain ⟨first, others, rfl, isAlpha⟩ := isNot.exists_cons
        rintro c isHead
        obtain rfl : first = c := Option.some.inj isHead
        exact Joined.notBlank_of_isAlpha isAlpha

theorem head (spells : formula.Spells level text) : ∀ c ∈ text.head?, isBlank c = false := by
  obtain ⟨-, -, -, -, notBlank⟩ := spells.exists_opening
  exact notBlank

theorem ne_nil (spells : formula.Spells level text) : text ≠ [] := by
  obtain ⟨front, rest, rfl, -⟩ := spells.exists_opening
  simp

theorem trimStart_append (spells : formula.Spells level text) (rest : List Char) :
    trimStart (text ++ rest) = text ++ rest := by
  refine trimStart_of_head fun c isHead => spells.head c ?_
  rwa [List.head?_append_of_ne_nil _ spells.ne_nil] at isHead

/-- A closing parenthesis comes last. -/
theorem exists_concat (spells : formula.Spells level text) : ∃ start, text = start ++ [')'] := by
  induction spells with
  | @feature feature inside => exact ⟨'(' :: inside, rfl⟩
  | @nested inner before text after => exact ⟨'(' :: (before ++ (text ++ after)), by simp⟩
  | single _ _ inductionHypothesis => exact inductionHypothesis
  | @joined _ _ _ _ text between _ _ _ _ _ _ ofRight =>
      obtain ⟨start, rfl⟩ := ofRight
      exact ⟨text ++ (between ++ start), by simp⟩
  | @negation inner word blanks _ _ _ _ _ inductionHypothesis =>
      obtain ⟨start, rfl⟩ := inductionHypothesis
      exact ⟨word ++ (blanks ++ start), by simp⟩

theorem isTrimmed (spells : formula.Spells level text) : IsTrimmed text := by
  refine ⟨spells.head, fun c isLast => ?_⟩
  obtain ⟨start, rfl⟩ := spells.exists_concat
  rw [List.getLast?_concat] at isLast
  obtain rfl : ')' = c := Option.some.inj isLast
  decide

theorem exists_cons (spells : formula.Spells .group text) : ∃ rest, text = '(' :: rest := by
  cases spells with
  | feature => exact ⟨_, rfl⟩
  | nested => exact ⟨_, rfl⟩
  | single isChain => exact absurd rfl isChain
  | joined joins => cases joins

end Formula.Spells

/-! ## Reading what has been spelled -/

/-- Nothing but blanks stands before a closing parenthesis or the end. -/
def Closes (text : List Char) : Prop :=
  ∀ c ∈ (trimStart text).head?, c = ')'

theorem closes_nil : Closes [] := by
  simp [Closes]

theorem trimStart_closing {blanks : List Char} (areBlank : ∀ c ∈ blanks, isBlank c)
    (rest : List Char) : trimStart (blanks ++ ')' :: rest) = ')' :: rest := by
  rw [trimStart_append_of_blanks areBlank]
  exact trimStart_of_head fun c isHead => by
    obtain rfl : ')' = c := Option.some.inj isHead
    decide

theorem closes_closing {blanks : List Char} (areBlank : ∀ c ∈ blanks, isBlank c)
    (rest : List Char) : Closes (blanks ++ ')' :: rest) := by
  rw [Closes, trimStart_closing areBlank]
  exact fun c isHead => (Option.some.inj isHead).symm

theorem dropJoint?_of_closes {text : List Char} (closes : Closes text) (joint : Joint) :
    dropJoint? joint text = none := by
  unfold Closes at closes
  rw [dropJoint?, dropWordAndBlanks?]
  have notThere : dropStartFolded? joint.name.toList (trimStart text) = none := by
    cases isStart : trimStart text with
    | nil => cases joint <;> rfl
    | cons c rest =>
        obtain rfl : c = ')' := closes c (by rw [isStart]; rfl)
        exact dropStartFolded?_notName joint.letters joint.nonempty (by decide) rest
  rw [notThere]

/-- No connective follows where a formula is closed. -/
theorem nextJoint?_of_closes {text : List Char} (closes : Closes text) (joints : List Joint) :
    nextJoint? joints text = none := by
  rw [nextJoint?, List.findSome?_eq_none_iff]
  intro joint _
  rw [dropJoint?_of_closes closes]
  rfl

theorem dropJoint?_same {joint : Joint} {between : List Char} (isJoint : joint.Spells between)
    (rest : List Char) : dropJoint? joint (between ++ rest) = some (trimStart rest) := by
  obtain ⟨beforeBlank, isWord, afterBlank, present⟩ := isJoint
  rw [dropJoint?, List.append_assoc, trimStart_append_of_blanks beforeBlank, List.append_assoc,
    isWord.trimStart_append, isWord.dropWordAndBlanks?_same afterBlank present]

theorem dropJoint?_other {joint other : Joint} (different : other ≠ joint) {between : List Char}
    (isJoint : joint.Spells between) (rest : List Char) :
    dropJoint? other (between ++ rest) = none := by
  obtain ⟨beforeBlank, isWord, -, -⟩ := isJoint
  have otherHead : other.name.toList.head? ≠ joint.name.toList.head? := by
    revert different
    cases other <;> cases joint <;> decide
  rw [dropJoint?, List.append_assoc, trimStart_append_of_blanks beforeBlank, List.append_assoc,
    isWord.trimStart_append, isWord.dropWordAndBlanks?_other other.letters otherHead other.nonempty]

/-- The connective that follows is found among those that may follow. -/
theorem nextJoint?_join {joint : Joint} {joints : List Joint} (joins : joint ∈ joints)
    {between : List Char} (isJoint : joint.Spells between) (rest : List Char) :
    nextJoint? joints (between ++ rest) = some (joint, trimStart rest) := by
  induction joints with
  | nil => cases joins
  | cons other joints inductionHypothesis =>
      rw [nextJoint?, List.findSome?_cons]
      by_cases same : other = joint
      · rw [same, dropJoint?_same isJoint]
        rfl
      · rw [dropJoint?_other same isJoint]
        exact inductionHypothesis ((List.mem_cons.mp joins).resolve_left (Ne.symm same))

theorem readGroup?_feature (readWhole : FormulaReader) {feature : Feature} {inside : List Char}
    (spells : feature.Spells inside) (rest : List Char) :
    readGroup? readWhole ('(' :: (inside ++ ')' :: rest)) = some (.feature feature, rest) := by
  obtain ⟨isInside, isRest⟩ := ungrouped_parts spells.isUngrouped rest
  simp [readGroup?, isInside, isRest, spells.readFeature?]

/-- Parentheses that no feature stands between are those of a group. -/
theorem readGroup?_nested {readWhole : FormulaReader} {front inside : List Char}
    (areUngrouped : ∀ c ∈ front, isUngrouped c) :
    readGroup? readWhole ('(' :: (front ++ '(' :: inside)) = do
      let (inner, later) ← readWhole (trimStart (front ++ '(' :: inside))
      let after ← dropClosing? (trimStart later)
      return (.group inner, after) := by
  have isOpening : (front ++ '(' :: inside).dropWhile isUngrouped = '(' :: inside := by
    rw [List.dropWhile_append_of_pos areUngrouped, List.dropWhile_cons_of_neg (by decide)]
  rw [readGroup?, isOpening]
  rfl

theorem Formula.Spells.not_dropNot {formula : Formula} {text : List Char}
    (spells : formula.Spells .group text) (rest : List Char) :
    dropWordAndBlanks? "not" (text ++ rest) = none := by
  obtain ⟨others, rfl⟩ := spells.exists_cons
  rw [List.cons_append, dropWordAndBlanks?, dropStartFolded?_opening (by decide) (by decide)]

/-- Above a group, reading begins with the group that comes first. -/
theorem readAt?_chain {level : Level} (isChain : level ≠ .group) {formula : Formula}
    {text : List Char} (spells : formula.Spells .group text) (fuel : Nat) (rest : List Char) :
    readAt? (fuel + 1) level (text ++ rest) =
      readChain? (readAt? fuel .group) (fun joint => readAt? fuel (.chain joint)) level.joints
        (text ++ rest) := by
  cases level with
  | group => exact absurd rfl isChain
  | chain joint => rfl
  | whole => simp only [readAt?, spells.not_dropNot, Level.joints]

theorem Level.fuel_of_ne {level : Level} (isChain : level ≠ .group) (length : Nat) :
    level.fuel length = 2 * length + 2 := by
  cases level with
  | group => exact absurd rfl isChain
  | chain => rfl
  | whole => rfl

theorem Level.ne_group_of_mem {level : Level} {joint : Joint} (joins : joint ∈ level.joints) :
    level ≠ .group := by
  rintro rfl
  cases joins

theorem exists_fuel {needed fuel : Nat} (enough : needed + 1 ≤ fuel) :
    ∃ less, fuel = less + 1 ∧ needed ≤ less :=
  ⟨fuel - 1, by omega, by omega⟩

/-- A formula is read from whatever has been spelled for it, up to where it ends. -/
theorem Formula.Spells.readAt? {formula : Formula} {level : Level} {text : List Char}
    (spells : formula.Spells level text) {fuel : Nat} (enough : level.fuel text.length ≤ fuel)
    {rest : List Char} (ends : level = .group ∨ Closes rest) :
    readAt? fuel level (text ++ rest) = some (formula, rest) := by
  induction spells generalizing fuel rest with
  | feature spells =>
      obtain ⟨less, rfl, -⟩ := exists_fuel enough
      rw [List.cons_append, List.append_assoc]
      exact readGroup?_feature (Media.readAt? less .whole) spells rest
  | @nested inner before text after beforeBlank spells afterBlank inductionHypothesis =>
      obtain ⟨less, rfl, enoughLess⟩ := exists_fuel enough
      have enoughInside : Level.whole.fuel text.length ≤ less := by
        simp only [List.length_cons, List.length_append] at enoughLess
        simp only [Level.fuel]
        omega
      have isInside := inductionHypothesis enoughInside (.inr (closes_closing afterBlank rest))
      obtain ⟨front, opened, isOpened, areUngrouped, -⟩ := spells.exists_opening
      have areUngrouped' : ∀ c ∈ before ++ front, isUngrouped c :=
        List.forall_mem_append.mpr
          ⟨fun c member => isUngrouped_of_isBlank (beforeBlank c member), areUngrouped⟩
      have isWhole : '(' :: (before ++ (text ++ (after ++ [')']))) ++ rest =
          '(' :: (before ++ front ++ '(' :: (opened ++ (after ++ ')' :: rest))) := by
        simp [isOpened]
      have isStart : trimStart (before ++ front ++ '(' :: (opened ++ (after ++ ')' :: rest))) =
          text ++ (after ++ ')' :: rest) := by
        have isRest : before ++ front ++ '(' :: (opened ++ (after ++ ')' :: rest)) =
            before ++ (text ++ (after ++ ')' :: rest)) := by
          simp [isOpened]
        rw [isRest, trimStart_append_of_blanks beforeBlank, spells.trimStart_append]
      rw [isWhole, Media.readAt?, readGroup?_nested areUngrouped', isStart, isInside]
      simp [trimStart_closing afterBlank, dropClosing?]
  | @single formula level text isChain spells inductionHypothesis =>
      rw [Level.fuel_of_ne isChain] at enough
      obtain ⟨less, rfl, enoughLess⟩ := exists_fuel enough
      have enoughInside : Level.group.fuel text.length ≤ less := by
        simp only [Level.fuel]
        omega
      have closes := ends.resolve_left isChain
      rw [readAt?_chain isChain spells, readChain?, inductionHypothesis enoughInside (.inl rfl)]
      simp [nextJoint?_of_closes closes]
  | @joined left right level joint text between text' joins spellsLeft isJoint spellsRight
      ofLeft ofRight =>
      have isChain := Level.ne_group_of_mem joins
      rw [Level.fuel_of_ne isChain] at enough
      obtain ⟨less, rfl, enoughLess⟩ := exists_fuel enough
      have closes := ends.resolve_left isChain
      have notEmpty := List.length_pos_of_ne_nil spellsLeft.ne_nil
      simp only [List.length_append] at enoughLess
      have enoughLeft : Level.group.fuel text.length ≤ less := by
        simp only [Level.fuel]
        omega
      have enoughRight : (Level.chain joint).fuel text'.length ≤ less := by
        simp only [Level.fuel]
        omega
      have isLeft : Media.readAt? less .group (text ++ (between ++ (text' ++ rest))) =
          some (left, between ++ (text' ++ rest)) := ofLeft enoughLeft (.inl rfl)
      have isRight := ofRight enoughRight (.inr closes)
      rw [List.append_assoc, List.append_assoc, readAt?_chain isChain spellsLeft, readChain?, isLeft]
      simp [nextJoint?_join joins isJoint, spellsRight.trimStart_append, isRight]
  | @negation inner word blanks text isNot areBlank present spells inductionHypothesis =>
      obtain ⟨less, rfl, enoughLess⟩ := exists_fuel enough
      have enoughInside : Level.group.fuel text.length ≤ less := by
        simp only [List.length_append] at enoughLess
        simp only [Level.fuel]
        omega
      have isInside : Media.readAt? less .group (text ++ rest) = some (inner, rest) :=
        inductionHypothesis enoughInside (.inl rfl)
      have isNegated : dropWordAndBlanks? "not" (word ++ (blanks ++ (text ++ rest))) =
          some (text ++ rest) := by
        rw [isNot.dropWordAndBlanks?_same areBlank present, spells.trimStart_append]
      rw [List.append_assoc, List.append_assoc]
      simp [Media.readAt?, isNegated, isInside]

theorem Formula.Spells.readFormula? {formula : Formula} {text : List Char}
    (spells : formula.Spells .whole text) : readFormula? text = some formula := by
  have isRead := spells.readAt? le_rfl (.inr closes_nil)
  rw [List.append_nil] at isRead
  rw [Media.readFormula?, isRead]

/-- A text is spelled for one formula at most. -/
theorem Formula.Spells.unique {formula other : Formula} {text : List Char}
    (spells : formula.Spells .whole text) (spells' : other.Spells .whole text) :
    formula = other := by
  have same := spells.readFormula?
  rw [spells'.readFormula?] at same
  exact (Option.some.inj same).symm

/-! ## Squeezing what has been spelled -/

theorem squeeze_ne_nil {text : List Char} (nonempty : text ≠ []) : squeeze text ≠ [] := by
  obtain ⟨c, rest, rfl⟩ := List.exists_cons_of_ne_nil nonempty
  rw [squeeze, squeezeFrom]
  split <;> simp

theorem IsWord.squeeze_append {word : String} {text : List Char} (isWord : IsWord word text)
    (rest : List Char) : squeeze (text ++ rest) = text ++ squeeze rest := by
  have noBlank : ∀ c ∈ text, isBlank c = false := fun c member =>
    Joined.notBlank_of_isAlpha (isWord.isAlpha c member)
  have nonempty : text ≠ [] := by
    obtain ⟨c, others, rfl, -⟩ := isWord.exists_cons
    exact List.cons_ne_nil c others
  rw [squeeze, squeezeFrom_append_of_last false nonempty
    (fun c isLast => noBlank c (List.mem_of_getLast? isLast)), squeezeFrom_of_noBlank false noBlank]

theorem IsWord.append_squeeze {word : String} {text : List Char} (isWord : IsWord word text)
    (left rest : List Char) :
    squeeze (left ++ (text ++ rest)) = squeeze left ++ (text ++ squeeze rest) := by
  obtain ⟨c, others, rfl, isAlpha⟩ := isWord.exists_cons
  have isRest := isWord.squeeze_append rest
  rw [← isRest]
  exact squeezeFrom_append_of_head false left (List.cons_ne_nil c _) fun d isHead => by
    obtain rfl : c = d := Option.some.inj isHead
    exact Joined.notBlank_of_isAlpha isAlpha

theorem Joint.Spells.squeeze {joint : Joint} {between : List Char} (isJoint : joint.Spells between) :
    joint.Spells (squeeze between) := by
  obtain ⟨beforeBlank, isWord, afterBlank, present⟩ := isJoint
  rw [isWord.append_squeeze]
  exact .word (squeezeFrom_of_blanks false beforeBlank) isWord
    (squeezeFrom_of_blanks false afterBlank) (squeeze_ne_nil present)

theorem squeeze_parentheses (inside : List Char) :
    squeeze ('(' :: (inside ++ [')'])) = '(' :: (squeeze inside ++ [')']) := by
  have isStart := squeezeFrom_append false [] (c := '(') (by decide) (inside ++ [')'])
  rw [List.nil_append] at isStart
  rw [squeeze, isStart, squeezeFrom_append false inside (by decide) []]
  rfl

namespace Formula.Spells

variable {formula : Formula} {level : Level} {text : List Char}

theorem append_squeeze (spells : formula.Spells level text) (left : List Char) :
    Text.squeeze (left ++ text) = Text.squeeze left ++ Text.squeeze text :=
  squeezeFrom_append_of_head false left spells.ne_nil spells.head

theorem squeeze_append (spells : formula.Spells level text) (rest : List Char) :
    Text.squeeze (text ++ rest) = Text.squeeze text ++ Text.squeeze rest :=
  squeezeFrom_append_of_last false spells.ne_nil spells.isTrimmed.2 rest

/-- Squeezing what has been spelled for a formula spells it again. -/
theorem squeeze (spells : formula.Spells level text) : formula.Spells level (squeeze text) := by
  induction spells with
  | feature spells =>
      rw [squeeze_parentheses]
      exact .feature spells.squeeze
  | @nested inner before text after beforeBlank spells afterBlank inductionHypothesis =>
      have isInside : before ++ (text ++ (after ++ [')'])) = before ++ text ++ after ++ [')'] := by
        simp
      have parts : Text.squeeze (before ++ text ++ after) =
          Text.squeeze before ++ (Text.squeeze text ++ Text.squeeze after) := by
        have notEmpty : text ++ after ≠ [] := by simp [spells.ne_nil]
        rw [List.append_assoc, Text.squeeze, squeezeFrom_append_of_head false before notEmpty
          (by rw [List.head?_append_of_ne_nil _ spells.ne_nil]; exact spells.head),
          spells.squeeze_append after]
        rfl
      rw [isInside, squeeze_parentheses, parts, List.append_assoc, List.append_assoc]
      exact .nested (squeezeFrom_of_blanks false beforeBlank) inductionHypothesis
        (squeezeFrom_of_blanks false afterBlank)
  | single isChain _ inductionHypothesis => exact .single isChain inductionHypothesis
  | joined joins spellsLeft isJoint spellsRight ofLeft ofRight =>
      rw [spellsLeft.squeeze_append, spellsRight.append_squeeze]
      exact .joined joins ofLeft isJoint.squeeze ofRight
  | negation isNot areBlank present spells inductionHypothesis =>
      rw [isNot.squeeze_append, spells.append_squeeze]
      exact .negation isNot (squeezeFrom_of_blanks false areBlank) (squeeze_ne_nil present)
        inductionHypothesis

end Formula.Spells

end ContainerPreview.Media
