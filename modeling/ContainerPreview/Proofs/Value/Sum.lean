import ContainerPreview.Proofs.Text.Squeeze
import ContainerPreview.Proofs.Value.Calls

/-!
# Fluid sums

A fluid sum is a quantity with a configured unit, a plus sign and a size in `rem`, with blanks
around and between them.  It is turned around if it is the whole of a text, and nothing else is.
-/

namespace ContainerPreview

open Text

namespace Value

/-- The parts of a fluid sum, with the blanks around them. -/
structure FluidSum where
  left : List Char
  number : List Char
  unit : List Char
  beforePlus : List Char
  afterPlus : List Char
  size : List Char
  rem : List Char
  right : List Char

/-- The unit of sizes that are relative to the root. -/
def remUnit : List Char :=
  ['r', 'e', 'm']

theorem isUnitName_remUnit : ∀ unit ∈ [remUnit], IsUnitName unit := by
  rintro unit isUnit
  obtain rfl := List.mem_singleton.mp isUnit
  exact ⟨List.cons_ne_nil 'r' _, by decide⟩

namespace FluidSum

/-- What comes after the quantity of the sum. -/
def addend (sum : FluidSum) : List Char :=
  sum.beforePlus ++ '+' :: (sum.afterPlus ++ (sum.size ++ sum.rem))

/-- The sum as it is written. -/
def text (sum : FluidSum) : List Char :=
  sum.left ++ (sum.number ++ sum.unit ++ sum.addend) ++ sum.right

/-- The sum turned around. -/
def turned (scheme : Scheme) (sum : FluidSum) : List Char :=
  sum.left ++ (sum.size ++ remUnit ++ ' ' :: '+' :: ' ' :: (sum.number ++
    scheme.targetOf sum.unit)) ++ sum.right

/-- The parts of the sum are what they are called, by the given units. -/
structure IsRead (sum : FluidSum) (units : List (List Char)) : Prop where
  left : ∀ c ∈ sum.left, isBlank c
  quantity : IsQuantity units sum.number sum.unit
  beforePlus : ∀ c ∈ sum.beforePlus, isBlank c
  afterPlus : ∀ c ∈ sum.afterPlus, isBlank c
  size : IsQuantity [remUnit] sum.size sum.rem
  right : ∀ c ∈ sum.right, isBlank c

theorem nameEnds_addend {sum : FluidSum} (beforePlus : ∀ c ∈ sum.beforePlus, isBlank c) :
    nameEnds sum.addend := by
  rw [addend]
  cases blanks : sum.beforePlus with
  | nil => rfl
  | cons c others =>
      have blank := beforePlus c (blanks ▸ List.mem_cons_self)
      have notName := (notNumber_of_isSeparator (isSeparator_of_isBlank blank)).1
      simp [nameEnds, notName]

end FluidSum

/-! ## Sizes relative to the root -/

theorem isBlank_of_isNumberChar {c : Char} (isNumber : isNumberChar c) : isBlank c = false := by
  by_contra blank
  rw [Bool.not_eq_false] at blank
  rw [isNumberChar_of_isBlank blank] at isNumber
  cases isNumber

theorem head_of_isNumber {number rest : List Char} (isNumber : isNumber number) :
    ∀ c ∈ (number ++ rest).head?, isNumberChar c := by
  obtain ⟨c, others, rfl⟩ := List.exists_cons_of_ne_nil (nonempty_of_isNumber isNumber)
  rintro d isHead
  obtain rfl : c = d := Option.some.inj isHead
  exact isNumberChar_of_isNumber isNumber c List.mem_cons_self

theorem trimStart_blanks_append {blanks text : List Char} (areBlank : ∀ c ∈ blanks, isBlank c)
    (notBlank : ∀ c ∈ text.head?, isBlank c = false) : trimStart (blanks ++ text) = text := by
  rw [trimStart_append_of_blanks areBlank, trimStart_of_head notBlank]

theorem endsNumber_of_isUnit_rem {rem : List Char}
    (isUnit : ∃ name ∈ [remUnit], dropStartFolded? name rem = some []) : EndsNumber rem := by
  obtain ⟨nonempty, classes⟩ := class_of_isUnit isUnitName_remUnit isUnit
  have ends := endsNumber_of_word nonempty classes []
  rwa [List.append_nil] at ends

theorem exists_of_rootSize? {text size : List Char} (found : Scheme.rootSize? text = some size) :
    ∃ before after rem, text = before ++ '+' :: (after ++ (size ++ rem)) ∧
      (∀ c ∈ before, isBlank c) ∧ (∀ c ∈ after, isBlank c) ∧ IsQuantity [remUnit] size rem := by
  unfold Scheme.rootSize? at found
  split at found
  · rename_i afterPlus isPlus
    dsimp only at found
    split at found
    · rename_i isSize
      rw [Bool.and_eq_true, beq_iff_eq, List.contains_iff_mem] at isSize
      obtain ⟨isRem, isLength⟩ := isSize
      cases found
      generalize isText : trimStart afterPlus = sized at isRem isLength
      have isUnit : ∃ name ∈ [remUnit], dropStartFolded? name (sized.drop (sized.length - 3)) =
          some [] := ⟨remUnit, List.mem_cons_self, isRem⟩
      refine ⟨text.takeWhile isBlank, afterPlus.takeWhile isBlank, _, ?_, ?_, ?_, ?_, isUnit⟩
      · rw [List.take_append_drop, ← isText, takeWhile_append_trimStart, ← isPlus,
          takeWhile_append_trimStart]
      · exact fun c member => List.mem_takeWhile_imp member
      · exact fun c member => List.mem_takeWhile_imp member
      · rw [isNumber, List.contains_iff_mem,
          ← mem_numberLengths_append (endsNumber_of_isUnit_rem isUnit), List.take_append_drop]
        · exact isLength
        · intro isNil
          rw [isNil] at isLength
          exact absurd (pos_of_mem_numberLengths isLength) (Nat.lt_irrefl 0)
    · cases found
  · cases found

theorem rootSize?_of_isQuantity {before after size rem : List Char}
    (beforeBlank : ∀ c ∈ before, isBlank c) (afterBlank : ∀ c ∈ after, isBlank c)
    (isQuantity : IsQuantity [remUnit] size rem) :
    Scheme.rootSize? (before ++ '+' :: (after ++ (size ++ rem))) = some size := by
  have isRem : dropStartFolded? ['r', 'e', 'm'] rem = some [] := by
    obtain ⟨name, isName, whole⟩ := isQuantity.isUnit
    rwa [List.mem_singleton.mp isName] at whole
  have threeLetters : rem.length = 3 := length_of_dropStartFolded? isRem
  have isSized : trimStart (after ++ (size ++ rem)) = size ++ rem :=
    trimStart_blanks_append afterBlank fun c isHead =>
      isBlank_of_isNumberChar (head_of_isNumber isQuantity.isNumber c isHead)
  have isPlus : trimStart (before ++ '+' :: (after ++ (size ++ rem))) =
      '+' :: (after ++ (size ++ rem)) := by
    apply trimStart_blanks_append beforeBlank
    rintro c isHead
    obtain rfl : '+' = c := Option.some.inj isHead
    decide
  have isTake : (size ++ rem).take ((size ++ rem).length - 3) = size ∧
      (size ++ rem).drop ((size ++ rem).length - 3) = rem := by
    rw [List.length_append, threeLetters, Nat.add_sub_cancel, List.take_left, List.drop_left]
    exact ⟨rfl, rfl⟩
  have isLength : size.length ∈ numberLengths (size ++ rem) := by
    rw [mem_numberLengths_append (endsNumber_of_isUnit_rem isQuantity.isUnit)
      (nonempty_of_isNumber isQuantity.isNumber)]
    exact length_mem_of_isNumber isQuantity.isNumber
  rw [Scheme.rootSize?, isPlus]
  simp only [isSized, isTake, isRem, List.contains_iff_mem.mpr isLength]
  rfl

/-! ## Turning sums around -/

/-- Blanks around a text that neither begins nor ends with one are all blanks at its ends. -/
theorem blanks_of_between {left text right : List Char} (leftBlank : ∀ c ∈ left, isBlank c)
    (nonempty : text ≠ []) (isTrimmed : IsTrimmed text) (rightBlank : ∀ c ∈ right, isBlank c) :
    (left ++ text ++ right).takeWhile isBlank = left ∧
      ((left ++ text ++ right).reverse.takeWhile isBlank).reverse = right := by
  have ofHead : ∀ {blanks rest : List Char}, (∀ c ∈ blanks, isBlank c) →
      (∀ c ∈ rest.head?, isBlank c = false) → (blanks ++ rest).takeWhile isBlank = blanks := by
    intro blanks rest areBlank notBlank
    rw [List.takeWhile_append_of_pos areBlank]
    cases rest with
    | nil => exact List.append_nil blanks
    | cons c rest =>
        rw [List.takeWhile_cons_of_neg (by simp [notBlank c rfl]), List.append_nil]
  constructor
  · rw [List.append_assoc]
    apply ofHead leftBlank
    rw [List.head?_append_of_ne_nil _ nonempty]
    exact isTrimmed.1
  · rw [List.append_assoc, List.reverse_append, List.reverse_append, List.append_assoc, ofHead,
      List.reverse_reverse]
    · exact fun c member => rightBlank c (List.mem_reverse.mp member)
    · rw [List.head?_append_of_ne_nil _ (by simpa using nonempty), List.head?_reverse]
      exact isTrimmed.2

namespace FluidSum

variable {units : List (List Char)} {sum : FluidSum}

theorem IsRead.isTrimmed (isRead : sum.IsRead units) :
    sum.number ++ sum.unit ++ sum.addend ≠ [] ∧
      IsTrimmed (sum.number ++ sum.unit ++ sum.addend) := by
  obtain ⟨nonempty, classes⟩ := class_of_isUnit isUnitName_remUnit isRead.size.isUnit
  refine ⟨by simp [addend], ?_, ?_⟩
  · intro c isHead
    rw [List.append_assoc] at isHead
    exact isBlank_of_isNumberChar (head_of_isNumber isRead.quantity.isNumber c isHead)
  · intro c isLast
    have isEnd : (sum.number ++ sum.unit ++ sum.addend).getLast? = sum.rem.getLast? := by
      rw [addend, ← List.append_assoc, ← List.cons_append, ← List.append_assoc,
        ← List.append_assoc, List.getLast?_append_of_ne_nil _ nonempty]
    rw [isEnd] at isLast
    exact isBlank_of_isNameChar (classes c (List.mem_of_getLast? isLast)).1

end FluidSum

namespace Scheme

variable {scheme : Scheme}

theorem exists_of_turnSum? (hasNames : scheme.HasNames) {text turned : List Char}
    (found : scheme.turnSum? text = some turned) :
    scheme.turnsSums ∧ ∃ sum : FluidSum,
      sum.IsRead scheme.names ∧ text = sum.text ∧ turned = sum.turned scheme := by
  unfold turnSum? at found
  split at found
  · rename_i turns
    obtain ⟨_, isSum, rfl⟩ := Option.map_eq_some_iff.mp found
    obtain ⟨reading, member, isTurned⟩ := List.exists_of_findSome?_eq_some isSum
    obtain ⟨size, isSize, rfl⟩ := Option.map_eq_some_iff.mp isTurned
    obtain ⟨before, after, rem, isRest, beforeBlank, afterBlank, isQuantity⟩ :=
      exists_of_rootSize? isSize
    have same := (append_of_mem_readings member).2
    have notBlank : trim text ≠ [] := by
      intro isEmpty
      rw [isEmpty] at member
      cases member
    refine ⟨turns, ⟨text.takeWhile isBlank, reading.number, reading.unit, before, after, size,
      rem, (text.reverse.takeWhile isBlank).reverse⟩,
      ⟨?_, isQuantity_of_mem_readings hasNames member, beforeBlank, afterBlank, isQuantity, ?_⟩,
      ?_, ?_⟩
    · exact fun c inBlanks => List.mem_takeWhile_imp inBlanks
    · exact fun c inBlanks => List.mem_takeWhile_imp (List.mem_reverse.mp inBlanks)
    · rw [FluidSum.text, FluidSum.addend, ← isRest, same, blanks_append_trim notBlank]
    · simp [FluidSum.turned, remUnit]
  · cases found

/-- Of the readings of a sum only the one that it is written by leaves a size to add. -/
theorem turnedSum?_of_isRead (hasNames : scheme.HasNames) {sum : FluidSum}
    (isRead : sum.IsRead scheme.names) :
    scheme.turnedSum? (sum.number ++ sum.unit ++ sum.addend) =
      some (sum.size ++ ['r', 'e', 'm', ' ', '+', ' '] ++ sum.number ++
        scheme.targetOf sum.unit) := by
  obtain ⟨unitNonempty, classes⟩ := class_of_isUnit hasNames isRead.quantity.isUnit
  have isSize : rootSize? sum.addend = some sum.size :=
    rootSize?_of_isQuantity isRead.beforePlus isRead.afterPlus isRead.size
  rw [turnedSum?]
  cases found : (readings scheme.names (sum.number ++ sum.unit ++ sum.addend)).findSome?
      fun reading => (rootSize? reading.rest).map fun size =>
        size ++ ['r', 'e', 'm', ' ', '+', ' '] ++ reading.number ++
          scheme.targetOf reading.unit with
  | none =>
      have notSize := List.findSome?_eq_none_iff.mp found _
        (isRead.quantity.mem_readings hasNames sum.addend)
      rw [isSize] at notSize
      cases notSize
  | some turned =>
      obtain ⟨reading, member, isTurned⟩ := List.exists_of_findSome?_eq_some found
      obtain ⟨size, isSize', rfl⟩ := Option.map_eq_some_iff.mp isTurned
      obtain ⟨before, after, rem, isRest, beforeBlank, -, -⟩ := exists_of_rootSize? isSize'
      let other : FluidSum := ⟨[], [], [], before, after, size, rem, []⟩
      have readingEnds : nameEnds reading.rest := by
        rw [isRest]
        exact other.nameEnds_addend beforeBlank
      obtain rfl := eq_of_mem_readings hasNames
        (isNumberChar_of_isNumber isRead.quantity.isNumber) classes unitNonempty
        (FluidSum.nameEnds_addend isRead.beforePlus) member readingEnds
      rw [isSize, Option.some.injEq] at isSize'
      rw [isSize']

/-- The texts that are turned around are the fluid sums. -/
theorem turnSum?_eq_some_iff (hasNames : scheme.HasNames) {text turned : List Char} :
    scheme.turnSum? text = some turned ↔ scheme.turnsSums ∧ ∃ sum : FluidSum,
      sum.IsRead scheme.names ∧ text = sum.text ∧ turned = sum.turned scheme := by
  constructor
  · exact exists_of_turnSum? hasNames
  · rintro ⟨turns, sum, isRead, rfl, rfl⟩
    obtain ⟨nonempty, isTrimmed⟩ := isRead.isTrimmed
    obtain ⟨isLeft, isRight⟩ := blanks_of_between isRead.left nonempty isTrimmed isRead.right
    rw [turnSum?, if_pos turns, FluidSum.text, trim_between isRead.left isTrimmed isRead.right,
      turnedSum?_of_isRead hasNames isRead, Option.map_some, isLeft, isRight]
    simp [FluidSum.turned, remUnit]

/-- The text is a fluid sum, and the scheme turns those around. -/
def IsSum (scheme : Scheme) (text : List Char) : Prop :=
  scheme.turnsSums ∧ ∃ sum : FluidSum, sum.IsRead scheme.names ∧ text = sum.text

theorem turnSum?_eq_none_iff (hasNames : scheme.HasNames) {text : List Char} :
    scheme.turnSum? text = none ↔ ¬ scheme.IsSum text := by
  rw [← not_iff_not, not_not, ← ne_eq, Option.ne_none_iff_exists']
  constructor
  · rintro ⟨turned, found⟩
    obtain ⟨turns, sum, isRead, isText, -⟩ := (turnSum?_eq_some_iff hasNames).mp found
    exact ⟨turns, sum, isRead, isText⟩
  · rintro ⟨turns, sum, isRead, isText⟩
    exact ⟨_, (turnSum?_eq_some_iff hasNames).mpr ⟨turns, sum, isRead, isText, rfl⟩⟩

/-- A text without quantities is no fluid sum. -/
theorem not_isSum_of_unitsOf (hasNames : scheme.HasNames) {text : List Char}
    (noUnits : unitsOf scheme.names text = []) : ¬ scheme.IsSum text := by
  rintro ⟨-, sum, isRead, rfl⟩
  rw [FluidSum.text, unitsOf_between hasNames isRead.left isRead.right] at noUnits
  exact unitsOf_ne_nil hasNames isRead.quantity (FluidSum.nameEnds_addend isRead.beforePlus)
    noUnits

/-- A size is no quantity if its unit is none. -/
theorem unitsOf_size (hasNames : scheme.HasNames) (noRem : remUnit ∉ scheme.names)
    {size rem : List Char} (isSize : IsQuantity [remUnit] size rem) :
    unitsOf scheme.names (size ++ rem) = [] := by
  obtain ⟨nonempty, isWord⟩ := class_of_isUnit isUnitName_remUnit isSize.isUnit
  obtain ⟨name, isName, whole⟩ := isSize.isUnit
  rw [List.mem_singleton.mp isName] at whole
  apply unitsOf_foreign hasNames (isNumberChar_of_isNumber isSize.isNumber) isWord nonempty
  intro name isUnit matched
  have same := eq_of_matches (hasNames name isUnit).2 (by decide) matched whole
  rw [same] at isUnit
  exact noRem isUnit

end Scheme

end Value

end ContainerPreview
