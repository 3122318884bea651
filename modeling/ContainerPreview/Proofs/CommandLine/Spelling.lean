import ContainerPreview.CommandLine
import Mathlib.Data.List.TakeWhile

/-!
# How command lines are spelled

The arguments of `convert` spell items: operands, options with a value, and settings of the debug
option.  The value of an option is the next argument, whatever it looks like, or follows the long
name after an equals sign.  The output also has a short name, which its value follows at once or as
the next argument.  After two hyphens all arguments are operands.

Arguments are sorted out just if they spell items, and what they are sorted into depends on the
items only.
-/

namespace ContainerPreview.CommandLine

/-! ## Equals signs -/

theorem splitAtEquals_of_not_mem {text : List Char} (notMem : '=' ∉ text) :
    splitAtEquals text = (text, none) := by
  have noRest : text.dropWhile (· != '=') = [] := by
    rw [List.dropWhile_eq_nil_iff]
    intro c member
    exact bne_iff_ne.mpr fun isEquals => notMem (isEquals ▸ member)
  rw [splitAtEquals, noRest]

theorem splitAtEquals_append {left : List Char} (notMem : '=' ∉ left) (right : List Char) :
    splitAtEquals (left ++ '=' :: right) = (left, some right) := by
  have passes : ∀ c ∈ left, (c != '=') = true := fun c member =>
    bne_iff_ne.mpr fun isEquals => notMem (isEquals ▸ member)
  have isRest : (left ++ '=' :: right).dropWhile (· != '=') = '=' :: right := by
    rw [List.dropWhile_append_of_pos passes]
    rfl
  have isFront : (left ++ '=' :: right).takeWhile (· != '=') = left := by
    rw [List.takeWhile_append_of_pos passes]
    exact List.append_nil left
  rw [splitAtEquals, isRest, isFront]

/-- A text with an equals sign is cut at the first one, every other text is left whole. -/
theorem splitAtEquals_cases (text : List Char) :
    '=' ∉ text ∧ splitAtEquals text = (text, none) ∨
      ∃ left right, '=' ∉ left ∧ text = left ++ '=' :: right ∧
        splitAtEquals text = (left, some right) := by
  by_cases member : '=' ∈ text
  · obtain ⟨left, right, rfl, notMem⟩ := List.eq_append_cons_of_mem member
    exact .inr ⟨left, right, notMem, rfl, splitAtEquals_append notMem right⟩
  · exact .inl ⟨member, splitAtEquals_of_not_mem member⟩

/-! ## Names of options -/

/-- The long name of an option that takes a value. -/
def ValueOption.longName : ValueOption → String
  | .output => "--output"
  | .containerElement => "--container-el"
  | .modifierAttribute => "--modifier-attr"
  | .unit => "--unit"
  | .debugFilter => "--debug-filter"

/-- The name of the debug option with a setting. -/
def debugName (on : Bool) : String :=
  if on then "--debug" else "--no-debug"

theorem ValueOption.ofName?_longName (option : ValueOption) :
    ofName? option.longName = some option := by
  cases option <;> rfl

theorem ValueOption.eq_longName {name : String} {option : ValueOption}
    (isName : ofName? name = some option) : name = option.longName := by
  unfold ofName? at isName
  split at isName <;> cases isName <;> rfl

theorem eq_debugName {name : String} {on : Bool} (isName : debugFlag? name = some on) :
    name = debugName on := by
  unfold debugFlag? at isName
  split at isName <;> cases isName <;> rfl

/-! ## Items -/

/-- What arguments spell. -/
inductive Item where
  | operand (name : String)
  | value (option : ValueOption) (text : String)
  | debug (on : Bool)

namespace Item

/-- Arguments spell an item. -/
inductive IsSpelled : Item → List String → Prop where
  | operand {name : String} (isOperand : name = "-" ∨ name.toList.head? ≠ some '-') :
      IsSpelled (.operand name) [name]
  | next (option : ValueOption) (text : String) :
      IsSpelled (.value option text) [option.longName, text]
  | attached (option : ValueOption) (text : String) :
      IsSpelled (.value option text) [option.longName ++ "=" ++ text]
  | shortNext (text : String) : IsSpelled (.value .output text) ["-o", text]
  | shortAttached {text : String} (nonempty : text ≠ "") :
      IsSpelled (.value .output text) ["-o" ++ text]
  | debug (on : Bool) : IsSpelled (.debug on) [debugName on]

/-- The sorted arguments with one more item in front. -/
def addTo : Item → Arguments → Arguments
  | .operand name, sorted => { sorted with inputs := name :: sorted.inputs }
  | .value option text, sorted => sorted.withValue option text
  | .debug _, sorted => sorted

/-- The setting of the debug option after an item. -/
def debugAfter (debug : Bool) : Item → Bool
  | .debug on => on
  | _ => debug

/-- The option that takes a value, with its value. -/
def value? : Item → Option (ValueOption × String)
  | .value option text => some (option, text)
  | _ => none

end Item

/-- Arguments spell items. -/
inductive Spells : List Item → List String → Prop where
  | nil : Spells [] []
  | cons {item : Item} {items : List Item} {front arguments : List String}
      (isSpelled : item.IsSpelled front) (spells : Spells items arguments) :
      Spells (item :: items) (front ++ arguments)
  | operands (names : List String) : Spells (names.map .operand) ("--" :: names)

/-- What an argument of a kind spells, by itself or with the next one. -/
def ArgumentKind.Spelled (argument : String) : ArgumentKind → Prop
  | .operand => (Item.operand argument).IsSpelled [argument]
  | .endOfOptions => argument = "--"
  | .flag on => (Item.debug on).IsSpelled [argument]
  | .value option _ (some text) => (Item.value option text).IsSpelled [argument]
  | .value option _ none => ∀ text, (Item.value option text).IsSpelled [argument, text]
  | .bad _ => True

theorem classify_of_long {argument : String} {rest : List Char} (nonempty : rest ≠ [])
    (isLong : argument.toList = '-' :: '-' :: rest) :
    classify argument = classifyLong argument.toList := by
  obtain ⟨c, more, rfl⟩ := List.exists_cons_of_ne_nil nonempty
  rw [classify, isLong]
  rfl

/-- A long option is the name of an option by itself or with a value after an equals sign. -/
theorem spelled_classifyLong (argument : String) :
    (classifyLong argument.toList).Spelled argument := by
  obtain ⟨-, isSplit⟩ | ⟨left, right, -, isArgument, isSplit⟩ := splitAtEquals_cases argument.toList
  · simp only [classifyLong, isSplit, String.ofList_toList, Option.map_none]
    split
    · rename_i option isName
      obtain rfl := ValueOption.eq_longName isName
      exact Item.IsSpelled.next option
    · rename_i on _ isName _
      obtain rfl := eq_debugName isName
      exact .debug on
    · trivial
    · trivial
  · have joined : argument = String.ofList left ++ "=" ++ String.ofList right := by
      rw [← String.toList_inj, isArgument]
      simp
    simp only [classifyLong, isSplit, Option.map_some]
    split
    · rename_i option isName
      rw [ValueOption.eq_longName isName] at joined
      rw [joined]
      exact .attached option _
    · trivial
    · trivial
    · trivial

/-- How an argument is read says what it spells. -/
theorem spelled_classify (argument : String) : (classify argument).Spelled argument := by
  have isArgument := String.ofList_toList (s := argument)
  unfold classify
  split
  · rename_i isHyphens
    rw [isHyphens] at isArgument
    exact isArgument.symm
  · rename_i rest _ isLong
    rw [← isLong]
    exact spelled_classifyLong argument
  · rename_i isShort
    rw [isShort] at isArgument
    obtain rfl := isArgument
    exact .shortNext
  · rename_i attached notShort isShort
    have joined : argument = "-o" ++ String.ofList attached := by
      rw [← String.toList_inj, isShort]
      simp
    have nonempty : String.ofList attached ≠ "" := fun isEmpty =>
      notShort (String.ofList_eq_empty_iff.mp isEmpty)
    rw [joined]
    exact .shortAttached nonempty
  · trivial
  · rename_i other
    refine .operand ?_
    rcases isText : argument.toList with _ | ⟨c, _ | ⟨d, more⟩⟩
    · exact .inr (Option.some_ne_none _).symm
    · by_cases isHyphen : c = '-'
      · rw [isText, isHyphen] at isArgument
        exact .inl isArgument.symm
      · exact .inr fun isHead => isHyphen (Option.some.inj isHead)
    · refine .inr fun isHead => other d more ?_
      rw [isText, Option.some.inj isHead]

/-! ## Sorted arguments -/

theorem classify_operand {name : String} (isOperand : name = "-" ∨ name.toList.head? ≠ some '-') :
    classify name = .operand := by
  rcases isOperand with rfl | notHyphen
  · rfl
  · unfold classify
    split
    all_goals
      rename_i isText
      first | rfl | exact absurd (by rw [isText]; rfl) notHyphen

theorem classify_attached (option : ValueOption) (text : String) :
    classify (option.longName ++ "=" ++ text) = .value option option.longName (some text) := by
  have isText : (option.longName ++ "=" ++ text).toList =
      option.longName.toList ++ '=' :: text.toList := by
    simp
  have notMem : '=' ∉ option.longName.toList := by cases option <;> decide
  obtain ⟨rest, isLong⟩ : ∃ rest, option.longName.toList = '-' :: '-' :: rest := by
    cases option <;> exact ⟨_, rfl⟩
  have isLongText : (option.longName ++ "=" ++ text).toList =
      '-' :: '-' :: (rest ++ '=' :: text.toList) := by
    rw [isText, isLong]
    rfl
  rw [classify_of_long (by simp) isLongText, isText, classifyLong, splitAtEquals_append notMem]
  simp [ValueOption.ofName?_longName]

theorem classify_shortAttached {text : String} (nonempty : text ≠ "") :
    classify ("-o" ++ text) = .value .output "-o" (some text) := by
  obtain ⟨c, more, isText⟩ := List.exists_cons_of_ne_nil (String.toList_eq_nil_iff.not.mpr nonempty)
  have joined : ("-o" ++ text).toList = '-' :: 'o' :: c :: more := by
    rw [String.toList_append, isText]
    rfl
  have isLast : classify ("-o" ++ text) =
      .value .output "-o" (some (String.ofList (c :: more))) := by
    rw [classify, joined]
    rfl
  rw [isLast, ← isText, String.ofList_toList]

/-- An item is sorted out by itself. -/
theorem sortArguments_append {item : Item} {front : List String} (isSpelled : item.IsSpelled front)
    (debug : Bool) (rest : List String) :
    sortArguments debug (front ++ rest) =
      (sortArguments (item.debugAfter debug) rest).map item.addTo := by
  cases isSpelled with
  | operand isOperand =>
      rw [List.singleton_append, sortArguments, classify_operand isOperand]
      rfl
  | next option text =>
      have isKind : classify option.longName = .value option option.longName none := by
        cases option <;> rfl
      rw [List.cons_append, sortArguments, isKind]
      rfl
  | attached option text =>
      rw [List.singleton_append, sortArguments, classify_attached]
      rfl
  | shortNext text => rfl
  | shortAttached nonempty =>
      rw [List.singleton_append, sortArguments, classify_shortAttached nonempty]
      rfl
  | debug on =>
      have isKind : classify (debugName on) = .flag on := by cases on <;> rfl
      rw [List.singleton_append, sortArguments, isKind]
      change sortArguments on rest = (sortArguments on rest).map (Item.debug on).addTo
      cases sortArguments on rest <;> rfl

/-- Arguments that are sorted out begin with an item, unless all others are operands. -/
theorem exists_front {argument : String} {rest : List String} {debug : Bool} {sorted : Arguments}
    (isSorted : sortArguments debug (argument :: rest) = .ok sorted) :
    argument = "--" ∨ ∃ (item : Item) (front later : List String), item.IsSpelled front ∧
      argument :: rest = front ++ later := by
  have spelled := spelled_classify argument
  rw [sortArguments] at isSorted
  cases isKind : classify argument with
  | operand => rw [isKind] at spelled; exact .inr ⟨_, _, rest, spelled, rfl⟩
  | endOfOptions => rw [isKind] at spelled; exact .inl spelled
  | flag on => rw [isKind] at spelled; exact .inr ⟨_, _, rest, spelled, rfl⟩
  | bad error => rw [isKind] at isSorted; cases isSorted
  | value option name attached =>
      rw [isKind] at spelled
      cases attached with
      | some text => exact .inr ⟨_, _, rest, spelled, rfl⟩
      | none =>
          cases rest with
          | nil => rw [isKind] at isSorted; cases isSorted
          | cons text rest => exact .inr ⟨_, _, rest, spelled text, rfl⟩

theorem Item.IsSpelled.length_pos {item : Item} {front : List String}
    (isSpelled : item.IsSpelled front) : 0 < front.length := by
  cases isSpelled <;> exact Nat.succ_pos _

/-- Arguments that are sorted out spell items.  An item takes one argument or two, so the recursion
is on the number of arguments. -/
theorem exists_spells : ∀ (arguments : List String) {debug : Bool} {sorted : Arguments},
    sortArguments debug arguments = .ok sorted → ∃ items, Spells items arguments
  | [], _, _, _ => ⟨[], .nil⟩
  | argument :: rest, debug, sorted, isSorted => by
      obtain rfl | ⟨item, front, later, isSpelled, same⟩ := exists_front isSorted
      · exact ⟨_, .operands rest⟩
      · have shorter : later.length < (argument :: rest).length := by
          rw [same, List.length_append]
          exact Nat.lt_add_of_pos_left isSpelled.length_pos
        rw [same] at isSorted ⊢
        rw [sortArguments_append isSpelled] at isSorted
        cases isLater : sortArguments (item.debugAfter debug) later with
        | error => rw [isLater] at isSorted; cases isSorted
        | ok sorted' =>
            obtain ⟨items, spells⟩ := exists_spells later isLater
            exact ⟨item :: items, .cons isSpelled spells⟩
termination_by arguments => arguments.length
decreasing_by exact shorter

end ContainerPreview.CommandLine
