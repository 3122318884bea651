import ContainerPreview.Media.Comparison
import ContainerPreview.Proofs.Text.Squeeze
import ContainerPreview.Proofs.Value.Cut

/-!
# What media features and conditions mean

A feature is a name, a name with a value, or a comparison of a name with one or two values.
What it says depends on the numbers and truth values that are assigned to names and values;
`min-` and `max-` in front of a name make its value a bound, and strict comparisons are read
as non-strict ones.

There are two ways from texts to features.  `Feature.Spells` relates a feature to everything
that can be written for it, with blanks where they are allowed; `readFeature?` and
`readCondition?` read a text.  Reading what has been spelled gives the feature back.
-/

namespace ContainerPreview.Media

open Text Value

/-! ## Meaning -/

/-- Numbers and truth values for the names and values of features. -/
structure Assignment (α : Type) where
  feature : List Char → α
  value : List Char → α
  present : List Char → Prop
  equals : List Char → List Char → Prop

/-- A media feature. -/
inductive Feature where
  | flag (name : List Char)
  | plain (name value : List Char)
  | atLeast (name value : List Char)
  | atMost (name value : List Char)
  | between (low name high : List Char)
deriving DecidableEq, Repr

/-- A bound on a feature from above or from below. -/
def Feature.bound (above : Bool) (name value : List Char) : Feature :=
  if above then .atMost name value else .atLeast name value

/-- A condition: features that hold together, or features that do not. -/
inductive Condition where
  | all (features : List Feature)
  | notAll (features : List Feature)
deriving DecidableEq, Repr

section Meaning

variable {α : Type} [LE α]

/-- A feature holds under an assignment. -/
def Feature.Holds (assignment : Assignment α) : Feature → Prop
  | .flag name => assignment.present name
  | .plain name value =>
      match dropStart? "min-".toList name, dropStart? "max-".toList name with
      | some bounded, _ => assignment.value value ≤ assignment.feature bounded
      | none, some bounded => assignment.feature bounded ≤ assignment.value value
      | none, none => assignment.equals name value
  | .atLeast name value => assignment.value value ≤ assignment.feature name
  | .atMost name value => assignment.feature name ≤ assignment.value value
  | .between low name high =>
      assignment.value low ≤ assignment.feature name ∧
        assignment.feature name ≤ assignment.value high

/-- All of the features hold. -/
def HoldAll (assignment : Assignment α) (features : List Feature) : Prop :=
  ∀ feature ∈ features, feature.Holds assignment

/-- A condition holds under an assignment. -/
def Condition.Holds (assignment : Assignment α) : Condition → Prop
  | .all features => HoldAll assignment features
  | .notAll features => ¬ HoldAll assignment features

end Meaning

/-! ## Spelling -/

/-- A character that a value can have in it. -/
def isValueChar (c : Char) : Bool :=
  !("()[]\"',<>=".toList.contains c)

/-- A character that a name can have in it. -/
def isIdentifierChar (c : Char) : Bool :=
  isValueChar c && c != ':' && !isBlank c

/-- A name: it has no blank and no colon in it and does not begin like a number. -/
def IsName (text : List Char) : Prop :=
  (∀ c ∈ text, isIdentifierChar c) ∧ ∃ c ∈ text.head?, isNumberChar c = false

instance (text : List Char) : Decidable (IsName text) :=
  decidable_of_iff (text.all isIdentifierChar ∧ text.head?.any fun c => !isNumberChar c) (by
    cases text <;> simp [IsName])

/-- A value: no parentheses, brackets, quotes, commas and relation signs. -/
def IsValue (text : List Char) : Prop :=
  ∀ c ∈ text, isValueChar c

instance (text : List Char) : Decidable (IsValue text) :=
  inferInstanceAs (Decidable (∀ c ∈ text, isValueChar c))

/-- A value that begins with a digit, a sign or a point after its blanks. -/
def IsNumeric (text : List Char) : Prop :=
  IsValue text ∧ ∃ c ∈ (trim text).head?, isNumberChar c

instance (text : List Char) : Decidable (IsNumeric text) :=
  decidable_of_iff (IsValue text ∧ (trim text).head?.any isNumberChar) (by
    cases isTrimmed : trim text <;> simp [IsNumeric, isTrimmed])

/-- A value without blanks around it and with single spaces in it. -/
def normal (text : List Char) : List Char :=
  squeeze (trim text)

/-- The relation signs that make the left side the smaller one, or the greater one. -/
def signs : Bool → List (List Char)
  | true => [['<'], ['<', '=']]
  | false => [['>'], ['>', '=']]

/-- What can be written for a feature inside its parentheses. -/
inductive Feature.Spells : Feature → List Char → Prop where
  | flag {inside : List Char} (isName : IsName (trim inside)) :
      Spells (.flag (trim inside)) inside
  | plain {left right : List Char} (isName : IsName (trim left)) (isValue : IsValue right) :
      Spells (.plain (trim left) (normal right)) (left ++ ':' :: right)
  | nameFirst {left sign right : List Char} {ascends : Bool} (isName : IsName (trim left))
      (isSign : sign ∈ signs ascends) (isNumeric : IsNumeric right) :
      Spells (.bound ascends (trim left) (normal right)) (left ++ (sign ++ right))
  | valueFirst {left sign right : List Char} {ascends : Bool} (isNumeric : IsNumeric left)
      (isSign : sign ∈ signs ascends) (isName : IsName (trim right)) :
      Spells (.bound (!ascends) (trim right) (normal left)) (left ++ (sign ++ right))
  | ascending {low first middle second high : List Char} (isLow : IsNumeric low)
      (isFirst : first ∈ signs true) (isName : IsName (trim middle)) (isSecond : second ∈ signs true)
      (isHigh : IsNumeric high) :
      Spells (.between (normal low) (trim middle) (normal high))
        (low ++ (first ++ (middle ++ (second ++ high))))
  | descending {high first middle second low : List Char} (isHigh : IsNumeric high)
      (isFirst : first ∈ signs false) (isName : IsName (trim middle))
      (isSecond : second ∈ signs false) (isLow : IsNumeric low) :
      Spells (.between (normal low) (trim middle) (normal high))
        (high ++ (first ++ (middle ++ (second ++ low))))

/-! ## Reading -/

/-- What follows the equals sign that a relation sign may end with. -/
def dropEquals : List Char → List Char
  | '=' :: side => side
  | side => side

/-- The sides of a comparison, with the direction of the relation sign in front of all but the
first. -/
def sides : List Char → List Char × List (Bool × List Char)
  | [] => ([], [])
  | c :: text =>
      if c == '<' || c == '>' then ([], (c == '<', dropEquals (sides text).1) :: (sides text).2)
      else (c :: (sides text).1, (sides text).2)

/-- A side is a value rather than a name. -/
def beginsNumeric (side : List Char) : Bool :=
  (trim side).head?.any isNumberChar

/-- Reads a name, or a name with a value after a colon. -/
def readPlain (inside : List Char) : Feature :=
  match inside.dropWhile (· != ':') with
  | _ :: value => .plain (trim (inside.takeWhile (· != ':'))) (normal value)
  | [] => .flag (trim inside)

/-- Reads the inside of a group. -/
def readFeature? (inside : List Char) : Option Feature :=
  match sides inside with
  | (_, []) => some (readPlain inside)
  | (left, [(ascends, right)]) =>
      some <| if beginsNumeric left then .bound (!ascends) (trim right) (normal left)
        else .bound ascends (trim left) (normal right)
  | (left, [(true, middle), (true, right)]) =>
      some (.between (normal left) (trim middle) (normal right))
  | (left, [(false, middle), (false, right)]) =>
      some (.between (normal right) (trim middle) (normal left))
  | _ => none

/-- What follows an `and` between blanks. -/
def dropAnd? (text : List Char) : Option (List Char) :=
  match trimStart text with
  | a :: n :: d :: rest =>
      if lowerAscii [a, n, d] = "and".toList then some (trimStart rest) else none
  | _ => none

theorem length_of_dropAnd? {text later : List Char} (dropped : dropAnd? text = some later) :
    later.length < text.length := by
  unfold dropAnd? at dropped
  split at dropped
  · rename_i isStart
    split at dropped
    · cases dropped
      rename_i rest _
      have shorter := length_trimStart_le text
      have further := length_trimStart_le rest
      rw [isStart] at shorter
      simp only [List.length_cons] at shorter
      omega
    · cases dropped
  · cases dropped

/-- The insides of the groups that a text joins by `and`. -/
def conjuncts? (text : List Char) : Option (List (List Char)) :=
  match text with
  | '(' :: rest =>
      match _closed : rest.dropWhile isUngrouped with
      | ')' :: after =>
          if after.isEmpty then some [rest.takeWhile isUngrouped]
          else
            match _found : dropAnd? after with
            | some later => (conjuncts? later).map (rest.takeWhile isUngrouped :: ·)
            | none => none
      | _ => none
  | _ => none
termination_by text.length
decreasing_by
  have shorter := (List.dropWhile_sublist isUngrouped (l := rest)).length_le
  have further := length_of_dropAnd? _found
  rw [_closed] at shorter
  simp only [List.length_cons] at shorter ⊢
  omega

/-- Up to its closing parenthesis a group has no parentheses. -/
theorem ungrouped_parts {inside : List Char} (noGroup : ∀ c ∈ inside, isUngrouped c)
    (after : List Char) :
    (inside ++ ')' :: after).takeWhile isUngrouped = inside ∧
      (inside ++ ')' :: after).dropWhile isUngrouped = ')' :: after := by
  rw [List.takeWhile_append_of_pos noGroup, List.dropWhile_append_of_pos noGroup,
    List.takeWhile_cons_of_neg (by decide), List.dropWhile_cons_of_neg (by decide),
    List.append_nil]
  exact ⟨rfl, rfl⟩

theorem conjuncts?_group {inside : List Char} (noGroup : ∀ c ∈ inside, isUngrouped c)
    (after : List Char) :
    conjuncts? ('(' :: (inside ++ ')' :: after)) =
      if after.isEmpty then some [inside]
      else (dropAnd? after).bind fun later => (conjuncts? later).map (inside :: ·) := by
  obtain ⟨isInside, isRest⟩ := ungrouped_parts noGroup after
  rw [conjuncts?]
  split
  · rename_i same
    rw [isRest, List.cons.injEq] at same
    rw [isInside, ← same.2]
    split
    · rfl
    · split
      · rename_i found
        rw [found]
        rfl
      · rename_i notFound
        rw [notFound]
        rfl
  · rename_i notClosed
    exact absurd isRest (notClosed after)

/-- The condition that a text negates, with its parentheses. -/
def negated? (text : List Char) : Option (List Char) :=
  match dropStart? "(not ".toList text with
  | some ('(' :: rest) => if rest.getLast? = some ')' then some ('(' :: rest.dropLast) else none
  | _ => none

/-- The inside of the outermost parentheses. -/
def unwrap? (text : List Char) : Option (List Char) :=
  match text with
  | '(' :: rest => if rest.getLast? = some ')' then some rest.dropLast else none
  | _ => none

/-- Reads the features of a conjunction. -/
def readFeatures? (text : List Char) : Option (List Feature) := do
  (← conjuncts? text).mapM readFeature?

/-- Reads a condition: a conjunction, the negation of a single group, or the negation of a
conjunction in parentheses of its own. -/
def readCondition? (text : List Char) : Option Condition :=
  match negated? text with
  | some negated =>
      match conjuncts? negated with
      | some [inside] => (readFeature? inside).map fun feature => .notAll [feature]
      | some _ => none
      | none => ((unwrap? negated).bind readFeatures?).map .notAll
  | none => (readFeatures? text).map .all

/-! ## Reading what has been spelled -/

theorem class_of_isIdentifierChar {c : Char} (isName : isIdentifierChar c) :
    isValueChar c ∧ c ≠ ':' ∧ isBlank c = false := by
  simpa [isIdentifierChar, and_assoc] using isName

theorem class_of_isBlank {c : Char} (blank : isBlank c) : isValueChar c ∧ c ≠ ':' := by
  have special : ∀ s ∈ ":()[]\"',<>=".toList, isBlank s = false := by decide
  have notSpecial : c ∉ ":()[]\"',<>=".toList := fun member => by
    rw [special c member] at blank
    cases blank
  refine ⟨?_, fun isColon => notSpecial (isColon ▸ by decide)⟩
  rw [isValueChar, Bool.not_eq_true', ← Bool.not_eq_true, List.contains_iff_mem]
  exact fun member => notSpecial (List.mem_cons_of_mem _ member)

/-- What holds of blanks and of a trimmed text holds of the whole text. -/
theorem forall_mem_of_trim {P : Char → Prop} {text : List Char} (ofBlank : ∀ c, isBlank c → P c)
    (ofTrimmed : ∀ c ∈ trim text, P c) : ∀ c ∈ text, P c := by
  obtain ⟨left, right, same, leftBlank, rightBlank⟩ := exists_append_trim text
  rw [same]
  simp only [List.forall_mem_append]
  exact ⟨⟨fun c member => ofBlank c (leftBlank c member), ofTrimmed⟩,
    fun c member => ofBlank c (rightBlank c member)⟩

theorem IsName.class_of_mem {text : List Char} (isName : IsName (trim text)) :
    ∀ c ∈ text, isValueChar c ∧ c ≠ ':' :=
  forall_mem_of_trim (fun _ blank => class_of_isBlank blank) fun c member =>
    ⟨(class_of_isIdentifierChar (isName.1 c member)).1, (class_of_isIdentifierChar (isName.1 c member)).2.1⟩

theorem IsName.isValue {text : List Char} (isName : IsName (trim text)) : IsValue text :=
  fun c member => (isName.class_of_mem c member).1

theorem IsName.not_beginsNumeric {text : List Char} (isName : IsName (trim text)) :
    beginsNumeric text = false := by
  obtain ⟨c, isHead, notNumber⟩ := isName.2
  rw [beginsNumeric, isHead]
  exact notNumber

theorem IsNumeric.beginsNumeric {text : List Char} (isNumeric : IsNumeric text) :
    beginsNumeric text := by
  obtain ⟨c, isHead, isNumber⟩ := isNumeric.2
  rw [Media.beginsNumeric, isHead]
  exact isNumber

theorem notRelation_of_isValueChar {c : Char} (isValue : isValueChar c) :
    c ≠ '<' ∧ c ≠ '>' ∧ c ≠ '=' := by
  refine ⟨?_, ?_, ?_⟩ <;> (rintro rfl; revert isValue; decide)

theorem sides_append {left : List Char} (isValue : IsValue left) (rest : List Char) :
    sides (left ++ rest) = (left ++ (sides rest).1, (sides rest).2) := by
  induction left with
  | nil => rfl
  | cons c left inductionHypothesis =>
      obtain ⟨isChar, isValue⟩ := List.forall_mem_cons.mp isValue
      obtain ⟨notLess, notGreater, -⟩ := notRelation_of_isValueChar isChar
      rw [List.cons_append, sides, inductionHypothesis isValue]
      simp [notLess, notGreater]

theorem sides_of_isValue {text : List Char} (isValue : IsValue text) : sides text = (text, []) := by
  have whole := sides_append isValue []
  rwa [List.append_nil, sides, List.append_nil] at whole

/-- A relation sign is an angle that an equals sign may follow. -/
theorem exists_of_mem_signs {sign : List Char} {ascends : Bool} (isSign : sign ∈ signs ascends) :
    ∃ c, (sign = [c] ∨ sign = [c, '=']) ∧ (c == '<') = ascends ∧ (c == '<' || c == '>') = true := by
  cases ascends with
  | true => exact ⟨'<', by simpa [signs] using isSign, rfl, rfl⟩
  | false => exact ⟨'>', by simpa [signs] using isSign, rfl, rfl⟩

theorem sides_sign {sign : List Char} {ascends : Bool} (isSign : sign ∈ signs ascends)
    {rest : List Char} (noEquals : (sides rest).1.head? ≠ some '=') :
    sides (sign ++ rest) = ([], (ascends, (sides rest).1) :: (sides rest).2) := by
  have same : dropEquals (sides rest).1 = (sides rest).1 := by
    unfold dropEquals
    split
    · rename_i isEquals
      rw [isEquals] at noEquals
      exact absurd rfl noEquals
    · rfl
  obtain ⟨c, rfl | rfl, isLess, isAngle⟩ := exists_of_mem_signs isSign
  · rw [List.singleton_append, sides, if_pos isAngle, isLess, same]
  · have ofEquals : sides ('=' :: rest) = ('=' :: (sides rest).1, (sides rest).2) := by
      rw [sides, if_neg (by decide)]
    rw [List.cons_append, List.singleton_append, sides, if_pos isAngle, isLess, ofEquals]
    rfl

/-- A comparison has the sides that it is put together from. -/
theorem sides_comparison {left sign right : List Char} {ascends : Bool} (isLeft : IsValue left)
    (isSign : sign ∈ signs ascends) (isRight : IsValue right) :
    sides (left ++ (sign ++ right)) = (left, [(ascends, right)]) := by
  have noEquals : (sides right).1.head? ≠ some '=' := by
    rw [sides_of_isValue isRight]
    intro isHead
    exact (notRelation_of_isValueChar (isRight '=' (List.mem_of_head? isHead))).2.2 rfl
  rw [sides_append isLeft, sides_sign isSign noEquals, sides_of_isValue isRight, List.append_nil]

theorem sides_enclosing {left first middle second right : List Char} {ascends ascends' : Bool}
    (isLeft : IsValue left) (isFirst : first ∈ signs ascends) (isMiddle : IsValue middle)
    (isSecond : second ∈ signs ascends') (isRight : IsValue right) :
    sides (left ++ (first ++ (middle ++ (second ++ right)))) =
      (left, [(ascends, middle), (ascends', right)]) := by
  have ofRest := sides_comparison isMiddle isSecond isRight
  have noEquals : (sides (middle ++ (second ++ right))).1.head? ≠ some '=' := by
    rw [ofRest]
    intro isHead
    exact (notRelation_of_isValueChar (isMiddle '=' (List.mem_of_head? isHead))).2.2 rfl
  rw [sides_append isLeft, sides_sign isFirst noEquals, ofRest, List.append_nil]

/-- A feature is read from whatever has been spelled for it. -/
theorem Feature.Spells.readFeature? {feature : Feature} {inside : List Char}
    (spells : feature.Spells inside) : readFeature? inside = some feature := by
  cases spells with
  | flag isName =>
      have noColon : inside.dropWhile (· != ':') = [] :=
        List.dropWhile_eq_nil_iff.mpr fun c member => by
          simpa using (isName.class_of_mem c member).2
      rw [Media.readFeature?, sides_of_isValue isName.isValue]
      simp [readPlain, noColon]
  | @plain left right isName isValue =>
      have isValue' : IsValue (left ++ ':' :: right) :=
        List.forall_mem_append.mpr ⟨isName.isValue, List.forall_mem_cons.mpr ⟨by decide, isValue⟩⟩
      have noColon : ∀ c ∈ left, (c != ':') = true := fun c member => by
        simpa using (isName.class_of_mem c member).2
      rw [Media.readFeature?, sides_of_isValue isValue']
      simp [readPlain, List.dropWhile_append_of_pos noColon, List.takeWhile_append_of_pos noColon]
  | nameFirst isName isSign isNumeric =>
      rw [Media.readFeature?, sides_comparison isName.isValue isSign isNumeric.1]
      simp [isName.not_beginsNumeric]
  | valueFirst isNumeric isSign isName =>
      rw [Media.readFeature?, sides_comparison isNumeric.1 isSign isName.isValue]
      simp [isNumeric.beginsNumeric]
  | ascending isLow isFirst isName isSecond isHigh =>
      rw [Media.readFeature?, sides_enclosing isLow.1 isFirst isName.isValue isSecond isHigh.1]
  | descending isHigh isFirst isName isSecond isLow =>
      rw [Media.readFeature?, sides_enclosing isHigh.1 isFirst isName.isValue isSecond isLow.1]

/-! ## Squeezing what has been spelled -/

theorem mem_squeezeFrom {within : Bool} {text : List Char} {c : Char}
    (member : c ∈ squeezeFrom within text) : c ∈ text ∨ c = ' ' := by
  induction text generalizing within with
  | nil => exact .inl member
  | cons d text inductionHypothesis =>
      rw [squeezeFrom] at member
      split at member
      · split at member
        · exact (inductionHypothesis member).imp_left (List.mem_cons_of_mem d)
        · rcases List.mem_cons.mp member with rfl | later
          · exact .inr rfl
          · exact (inductionHypothesis later).imp_left (List.mem_cons_of_mem d)
      · rcases List.mem_cons.mp member with rfl | later
        · exact .inl List.mem_cons_self
        · exact (inductionHypothesis later).imp_left (List.mem_cons_of_mem d)

theorem IsValue.squeeze {text : List Char} (isValue : IsValue text) : IsValue (squeeze text) := by
  intro c member
  rcases mem_squeezeFrom member with inText | rfl
  · exact isValue c inText
  · decide

theorem normal_squeeze (text : List Char) : normal (squeeze text) = normal text := by
  rw [normal, trim_squeeze, squeeze, squeeze, squeezeFrom_squeezeFrom]
  rfl

theorem IsName.trim_squeeze {text : List Char} (isName : IsName (trim text)) :
    trim (squeeze text) = trim text := by
  rw [Text.trim_squeeze]
  exact squeezeFrom_of_noBlank false fun c member => (class_of_isIdentifierChar (isName.1 c member)).2.2

theorem head?_squeeze {text : List Char} (isTrimmed : IsTrimmed text) :
    (squeeze text).head? = text.head? := by
  cases text with
  | nil => rfl
  | cons c text =>
      have isFirst := squeezeFrom_append false [] (isTrimmed.1 c rfl) text
      rw [List.nil_append] at isFirst
      rw [squeeze, isFirst]
      rfl

theorem IsNumeric.squeeze {text : List Char} (isNumeric : IsNumeric text) :
    IsNumeric (squeeze text) := by
  refine ⟨isNumeric.1.squeeze, ?_⟩
  rw [Text.trim_squeeze, head?_squeeze (isTrimmed_trim text)]
  exact isNumeric.2

theorem squeezeFrom_sign {sign : List Char} {ascends : Bool} (isSign : sign ∈ signs ascends)
    (within : Bool) (left right : List Char) :
    squeezeFrom within (left ++ (sign ++ right)) =
      squeezeFrom within left ++ (sign ++ squeeze right) := by
  have ofSign : sign ≠ [] ∧ ∀ c ∈ sign, isBlank c = false := by
    obtain ⟨c, isSpelled, -, isAngle⟩ := exists_of_mem_signs isSign
    have notBlank : isBlank c = false := by
      rw [Bool.or_eq_true, beq_iff_eq, beq_iff_eq] at isAngle
      rcases isAngle with rfl | rfl <;> decide
    rcases isSpelled with rfl | rfl
    · exact ⟨by simp, by simp [notBlank]⟩
    · exact ⟨by simp, by simp [notBlank]; decide⟩
  obtain ⟨nonempty, noBlank⟩ := ofSign
  have ofRight : squeeze (sign ++ right) = sign ++ squeeze right := by
    rw [squeeze, squeezeFrom_append_of_last false nonempty
      (fun c isLast => noBlank c (List.mem_of_getLast? isLast)), squeezeFrom_of_noBlank false noBlank]
  rw [squeezeFrom_append_of_head within left, ofRight]
  · simp [nonempty]
  · intro c isHead
    rw [List.head?_append_of_ne_nil _ nonempty] at isHead
    exact noBlank c (List.mem_of_head? isHead)

/-- Squeezing what has been spelled for a feature spells it again. -/
theorem Feature.Spells.squeeze {feature : Feature} {inside : List Char}
    (spells : feature.Spells inside) : feature.Spells (squeeze inside) := by
  cases spells with
  | flag isName =>
      have same := isName.trim_squeeze
      rw [← same] at isName ⊢
      exact .flag isName
  | @plain left right isName isValue =>
      rw [Text.squeeze, squeezeFrom_append false left (by decide) right, ← isName.trim_squeeze,
        ← normal_squeeze]
      rw [← isName.trim_squeeze] at isName
      exact .plain isName isValue.squeeze
  | @nameFirst left sign right ascends isName isSign isNumeric =>
      rw [Text.squeeze, squeezeFrom_sign isSign, ← isName.trim_squeeze, ← normal_squeeze]
      rw [← isName.trim_squeeze] at isName
      exact .nameFirst isName isSign isNumeric.squeeze
  | @valueFirst left sign right ascends isNumeric isSign isName =>
      rw [Text.squeeze, squeezeFrom_sign isSign, ← isName.trim_squeeze, ← normal_squeeze]
      rw [← isName.trim_squeeze] at isName
      exact .valueFirst isNumeric.squeeze isSign isName
  | @ascending low first middle second high isLow isFirst isName isSecond isHigh =>
      rw [Text.squeeze, squeezeFrom_sign isFirst, Text.squeeze, squeezeFrom_sign isSecond,
        ← isName.trim_squeeze, ← normal_squeeze low, ← normal_squeeze high]
      rw [← isName.trim_squeeze] at isName
      exact .ascending isLow.squeeze isFirst isName isSecond isHigh.squeeze
  | @descending high first middle second low isHigh isFirst isName isSecond isLow =>
      rw [Text.squeeze, squeezeFrom_sign isFirst, Text.squeeze, squeezeFrom_sign isSecond,
        ← isName.trim_squeeze, ← normal_squeeze low, ← normal_squeeze high]
      rw [← isName.trim_squeeze] at isName
      exact .descending isHigh.squeeze isFirst isName isSecond isLow.squeeze

end ContainerPreview.Media
