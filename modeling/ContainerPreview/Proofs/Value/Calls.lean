import ContainerPreview.Proofs.Text.Group
import ContainerPreview.Proofs.Value.Swap

/-!
# Calls by their parts

The first call of a text is described by its parts: the text before it, in which no head of a
function begins, its name, its body, which ends where its parenthesis is closed, and what comes
after it.
-/

namespace ContainerPreview

open Text

namespace Value

/-! ## Texts without parentheses -/

theorem isBone_of_class {c : Char} (plain : isNameChar c ∨ isNumberChar c ∨ isBlank c) :
    isBone c = false := by
  by_contra bone
  rw [Bool.not_eq_false] at bone
  simp only [isBone, Bool.or_eq_true, beq_iff_eq] at bone
  rcases bone with (rfl | rfl) | rfl
  · exact absurd plain (by decide)
  · exact absurd plain (by decide)
  · exact absurd plain (by decide)

theorem skeleton_eq_nil {text : List Char}
    (plain : ∀ c ∈ text, isNameChar c ∨ isNumberChar c ∨ isBlank c) : skeleton text = [] :=
  List.filter_eq_nil_iff.mpr fun c member => by simp [isBone_of_class (plain c member)]

/-! ## Heads of functions -/

/-- The name of a function, in lower case. -/
def MathFunction.name : MathFunction → List Char
  | .calc => ['c', 'a', 'l', 'c']
  | .clamp => ['c', 'l', 'a', 'm', 'p']

/-- A word is the name of the function, in some case of letters. -/
def MathFunction.Spells (function : MathFunction) (word : List Char) : Prop :=
  dropStartFolded? function.name word = some []

theorem MathFunction.isLower_name (function : MathFunction) : ∀ s ∈ function.name, s.isLower := by
  cases function <;> decide

theorem MathFunction.Spells.class {function : MathFunction} {word : List Char}
    (spells : function.Spells word) :
    word ≠ [] ∧ ∀ c ∈ word, isNameChar c ∧ isNumberChar c = false := by
  have names : ∀ unit ∈ [function.name], IsUnitName unit := by
    rintro unit isUnit
    obtain rfl := List.mem_singleton.mp isUnit
    exact ⟨by cases function <;> exact List.cons_ne_nil _ _, function.isLower_name⟩
  exact class_of_isUnit names ⟨function.name, List.mem_cons_self, spells⟩

/-- A name that a parenthesis follows, found without regard to case. -/
theorem isSome_dropStartFolded?_opening {name text : List Char} :
    (dropStartFolded? (name ++ ['(']) text).isSome ↔
      ∃ word rest, text = word ++ '(' :: rest ∧ dropStartFolded? name word = some [] := by
  have atOpening : sameLetter '(' '(' := by decide
  induction name generalizing text with
  | nil =>
      rw [Option.isSome_iff_exists]
      constructor
      · rintro ⟨rest, dropped⟩
        obtain ⟨c, text, rfl, same, -⟩ := exists_of_dropStartFolded?_cons dropped
        exact ⟨[], text, by rw [eq_of_sameLetter_opening same]; rfl, rfl⟩
      · rintro ⟨word, rest, rfl, isNil⟩
        obtain rfl : word = [] := Option.some.inj isNil
        exact ⟨rest, by simp [dropStartFolded?, atOpening]⟩
  | cons s name inductionHypothesis =>
      rw [Option.isSome_iff_exists]
      constructor
      · rintro ⟨rest, dropped⟩
        obtain ⟨c, text, rfl, same, dropped⟩ := exists_of_dropStartFolded?_cons dropped
        obtain ⟨word, rest, rfl, spelled⟩ :=
          inductionHypothesis.mp (Option.isSome_iff_exists.mpr ⟨_, dropped⟩)
        exact ⟨c :: word, rest, rfl, by rw [dropStartFolded?, if_pos same, spelled]⟩
      · rintro ⟨word, rest, rfl, spelled⟩
        obtain ⟨c, word, rfl, same, spelled⟩ := exists_of_dropStartFolded?_cons spelled
        rw [List.cons_append, List.cons_append, dropStartFolded?, if_pos same]
        exact Option.isSome_iff_exists.mp (inductionHypothesis.mpr ⟨word, rest, rfl, spelled⟩)

/-- A head of a function is its name and an opening parenthesis. -/
theorem functionHead?_eq_some_iff {text : List Char} {function : MathFunction} {length : Nat} :
    functionHead? text = some (function, length) ↔
      ∃ word rest, text = word ++ '(' :: rest ∧ function.Spells word ∧ word.length = length := by
  have isHead : ∀ function : MathFunction,
      (dropStartFolded? (function.name ++ ['(']) text).isSome ↔
        ∃ word rest, text = word ++ '(' :: rest ∧ function.Spells word :=
    fun function => isSome_dropStartFolded?_opening
  have lengths : ∀ {function : MathFunction} {word : List Char}, function.Spells word →
      word.length = function.name.length := fun spells => length_of_dropStartFolded? spells
  have tries : functionHead? text =
      if (dropStartFolded? (MathFunction.calc.name ++ ['(']) text).isSome then some (.calc, 4)
      else if (dropStartFolded? (MathFunction.clamp.name ++ ['(']) text).isSome then
        some (.clamp, 5)
      else none := rfl
  rw [tries]
  constructor
  · intro found
    split at found
    · rename_i isCalc
      cases found
      obtain ⟨word, rest, same, spells⟩ := (isHead .calc).mp isCalc
      exact ⟨word, rest, same, spells, lengths spells⟩
    · split at found
      · rename_i isClamp
        cases found
        obtain ⟨word, rest, same, spells⟩ := (isHead .clamp).mp isClamp
        exact ⟨word, rest, same, spells, lengths spells⟩
      · cases found
  · rintro ⟨word, rest, same, spells, rfl⟩
    have here := (isHead function).mpr ⟨word, rest, same, spells⟩
    rw [lengths spells]
    cases function with
    | «calc» =>
        rw [if_pos here]
        rfl
    | clamp =>
        -- The two names are not of one length, so a text does not begin with both of them.
        have notCalc : ¬ (dropStartFolded? (MathFunction.calc.name ++ ['(']) text).isSome := by
          intro isCalc
          obtain ⟨word', rest', same', spells'⟩ := (isHead .calc).mp isCalc
          obtain ⟨rfl, -⟩ := eq_of_nameEnds (same.symm.trans same')
            (fun c member => (spells.class.2 c member).1)
            (fun c member => (spells'.class.2 c member).1) rfl rfl
          cases (lengths spells).symm.trans (lengths spells')
        rw [if_neg notCalc, if_pos here]
        rfl

/-- The parts of a text around its first head of a function: no name goes on where it begins. -/
structure HasHead (previous : Option Char) (text before name rest : List Char)
    (function : MathFunction) : Prop where
  text_eq : text = before ++ (name ++ '(' :: rest)
  spells : function.Spells name
  notName : (lastAfter previous before).any isNameChar = false
  noHead : firstHead? previous before = none

theorem functionHead?_append {left : List Char} {head : MathFunction × Nat}
    (found : functionHead? left = some head) (right : List Char) :
    functionHead? (left ++ right) = some head := by
  obtain ⟨word, rest, rfl, spells, length⟩ := functionHead?_eq_some_iff.mp found
  exact functionHead?_eq_some_iff.mpr ⟨word, rest ++ right, by simp, spells, length⟩

theorem firstHead?_cons_eq_none {previous : Option Char} {c : Char} {text : List Char} :
    firstHead? previous (c :: text) = none ↔
      (previous.any isNameChar = false → functionHead? (c :: text) = none) ∧
        firstHead? (some c) text = none := by
  rw [firstHead?]
  cases previous.any isNameChar with
  | true => simp
  | false => cases functionHead? (c :: text) <;> simp

/-- A head that begins in a part of a text that does not end inside a name is a head of that
part. -/
theorem functionHead?_of_append {left right : List Char} (nonempty : left ≠ [])
    (notName : (lastAfter none left).any isNameChar = false)
    (noHead : functionHead? left = none) : functionHead? (left ++ right) = none := by
  cases found : functionHead? (left ++ right) with
  | none => rfl
  | some head =>
      obtain ⟨word, rest, same, spells, length⟩ := functionHead?_eq_some_iff.mp found
      have notWithin : ∀ part, left ++ part ≠ word := by
        rintro part rfl
        have isLast := List.getLast?_eq_some_getLast nonempty
        rw [lastAfter_eq_getLast? none nonempty, isLast] at notName
        have isName := (spells.class.2 (left.getLast nonempty)
          (List.mem_append_left _ (List.getLast_mem nonempty))).1
        rw [Option.any_some, isName] at notName
        cases notName
      rcases List.append_eq_append_iff.mp same with ⟨part, isWord, -⟩ | ⟨part, isLeft, isRest⟩
      · exact absurd isWord.symm (notWithin part)
      · cases part with
        | nil =>
            rw [List.append_nil] at isLeft
            exact absurd (by rw [List.append_nil, isLeft]) (notWithin [])
        | cons d part =>
            rw [List.cons_append, List.cons.injEq] at isRest
            rw [isLeft, ← isRest.1, functionHead?_eq_some_iff.mpr ⟨word, part, rfl, spells, length⟩]
              at noHead
            cases noHead

theorem firstHead?_eq_some_iff {previous : Option Char} {text : List Char} {start length : Nat}
    {function : MathFunction} :
    firstHead? previous text = some (start, function, length) ↔
      ∃ before name rest, HasHead previous text before name rest function ∧
        before.length = start ∧ name.length = length := by
  constructor
  · intro found
    induction text generalizing previous start with
    | nil => cases found
    | cons c text inductionHypothesis =>
        rw [firstHead?] at found
        split at found
        · rename_i head isHead
          cases found
          split at isHead
          · cases isHead
          · rename_i notName
            obtain ⟨word, rest, same, spells, sameLength⟩ := functionHead?_eq_some_iff.mp isHead
            exact ⟨[], word, rest, ⟨same, spells, Bool.eq_false_iff.mpr notName, rfl⟩, rfl,
              sameLength⟩
        · rename_i notHere
          obtain ⟨⟨place, head⟩, isLater, same⟩ := Option.map_eq_some_iff.mp found
          cases same
          obtain ⟨before, name, rest, hasHead, rfl, sameLength⟩ := inductionHypothesis isLater
          refine ⟨c :: before, name, rest,
            ⟨congrArg (c :: ·) hasHead.text_eq, hasHead.spells, hasHead.notName, ?_⟩, rfl,
            sameLength⟩
          rw [firstHead?_cons_eq_none]
          refine ⟨fun notName => ?_, hasHead.noHead⟩
          rw [notName, if_neg (by decide)] at notHere
          cases isHead : functionHead? (c :: before) with
          | none => rfl
          | some head =>
              have inText := functionHead?_append isHead (name ++ '(' :: rest)
              rw [List.cons_append, ← hasHead.text_eq, notHere] at inText
              cases inText
  · rintro ⟨before, name, rest, ⟨rfl, spells, notName, noHead⟩, rfl, rfl⟩
    induction before generalizing previous with
    | nil =>
        obtain ⟨c, letters, rfl⟩ := List.exists_cons_of_ne_nil spells.class.1
        have isHead : functionHead? (c :: (letters ++ '(' :: rest)) =
            some (function, (c :: letters).length) :=
          functionHead?_eq_some_iff.mpr ⟨c :: letters, rest, rfl, spells, rfl⟩
        have outside : previous.any isNameChar = false := notName
        rw [List.nil_append, List.cons_append, firstHead?, outside, if_neg (by decide), isHead]
        rfl
    | cons c before inductionHypothesis =>
        obtain ⟨notHere, notLater⟩ := firstHead?_cons_eq_none.mp noHead
        have later := inductionHypothesis notName notLater
        have notHead : (if previous.any isNameChar then none
            else functionHead? (c :: (before ++ (name ++ '(' :: rest)))) = none := by
          split
          · rfl
          · rename_i outside
            exact functionHead?_of_append (List.cons_ne_nil c before) notName
              (notHere (Bool.eq_false_iff.mpr outside))
        rw [List.cons_append, firstHead?, notHead, later]
        rfl

/-! ## Calls -/

/-- What the parts of the first call of a text are. -/
structure Call.IsFirst (call : Call) (text : List Char) : Prop where
  hasHead : HasHead none text call.before call.name (call.body ++ ')' :: call.after) call.function
  closes : closeGroup? (call.body ++ ')' :: call.after) = some (call.body, call.after)

theorem HasHead.firstHead? {text before name rest : List Char} {function : MathFunction}
    (hasHead : HasHead none text before name rest function) :
    firstHead? none text = some (before.length, function, name.length) ∧
      text.take before.length = before ∧ (text.drop before.length).take name.length = name ∧
        (text.drop before.length).drop (name.length + 1) = rest := by
  refine ⟨firstHead?_eq_some_iff.mpr ⟨before, name, rest, hasHead, rfl, rfl⟩, ?_⟩
  rw [hasHead.text_eq, List.take_left, List.drop_left, List.take_left]
  refine ⟨rfl, rfl, ?_⟩
  rw [← List.drop_drop, List.drop_left]
  rfl

theorem firstCall?_eq_some_iff {text : List Char} {call : Call} :
    firstCall? text = some call ↔ call.IsFirst text := by
  constructor
  · intro found
    unfold firstCall? at found
    split at found
    · cases found
    · rename_i start function length isHead
      obtain ⟨⟨body, after⟩, closed, rfl⟩ := Option.map_eq_some_iff.mp found
      obtain ⟨before, name, rest, hasHead, rfl, rfl⟩ := firstHead?_eq_some_iff.mp isHead
      obtain ⟨-, isBefore, isName, isRest⟩ := hasHead.firstHead?
      rw [isRest] at closed
      have ofGroup := eq_of_closeGroup? closed
      constructor
      · rw [isBefore, isName, ← ofGroup]
        exact hasHead
      · rw [← ofGroup]
        exact closed
  · rintro ⟨hasHead, closes⟩
    obtain ⟨isHead, isBefore, isName, isRest⟩ := hasHead.firstHead?
    simp only [firstCall?, isHead, isBefore, isName, isRest, closes]
    rfl

theorem firstCall?_eq_none_iff {text : List Char} :
    firstCall? text = none ↔ ∀ before name rest function,
      HasHead none text before name rest function → closeGroup? rest = none := by
  constructor
  · intro noCall before name rest function hasHead
    obtain ⟨isHead, -, -, isRest⟩ := hasHead.firstHead?
    simpa only [firstCall?, isHead, isRest, Option.map_eq_none_iff] using noCall
  · intro notClosed
    cases found : firstCall? text with
    | none => rfl
    | some call =>
        obtain ⟨hasHead, closes⟩ := firstCall?_eq_some_iff.mp found
        rw [notClosed _ _ _ _ hasHead] at closes
        cases closes

theorem Call.isFirst {text : List Char} {call : Call} (found : firstCall? text = some call) :
    call.IsFirst text :=
  firstCall?_eq_some_iff.mp found

/-- Without an opening parenthesis there is no call. -/
theorem firstCall?_of_skeleton {text : List Char} (noParen : skeleton text = []) :
    firstCall? text = none := by
  cases found : firstCall? text with
  | none => rfl
  | some call =>
      rw [(Call.isFirst found).hasHead.text_eq, skeleton_append, skeleton_append,
        skeleton_cons_of_isBone (by decide)] at noParen
      simp at noParen

/-- The quantities of a text with a call are those of its parts. -/
theorem Call.IsFirst.unitsOf {units : List (List Char)} (names : ∀ unit ∈ units, IsUnitName unit)
    {text : List Char} {call : Call} (isFirst : call.IsFirst text) :
    unitsOf units text =
      Value.unitsOf units call.before ++ (Value.unitsOf units call.body ++
        Value.unitsOf units call.after) := by
  have noNumber : ∀ c ∈ call.name, isNumberChar c = false := fun c member =>
    (isFirst.hasHead.spells.class.2 c member).2
  rw [isFirst.hasHead.text_eq, unitsOf_name names isFirst.hasHead.notName noNumber (by decide),
    unitsOf_separator names call.body (by decide)]

/-- Units are swapped in the parts of a call as in the whole text. -/
theorem Call.IsFirst.swapUnits {scheme : Scheme} (hasNames : scheme.HasNames) {text : List Char}
    {call : Call} (isFirst : call.IsFirst text) :
    scheme.swapUnits text = scheme.swapUnits call.before ++ (call.name ++
      '(' :: (scheme.swapUnits call.body ++ ')' :: scheme.swapUnits call.after)) := by
  have noNumber : ∀ c ∈ call.name, isNumberChar c = false := fun c member =>
    (isFirst.hasHead.spells.class.2 c member).2
  rw [isFirst.hasHead.text_eq,
    Scheme.swapUnits_name hasNames isFirst.hasHead.notName noNumber (by decide),
    Scheme.swapUnits_separator hasNames call.body (by decide)]

/-! ## Conversion part by part -/

namespace Scheme

variable {scheme : Scheme}

/-- The conversion of an expression or of an argument: a sum is turned around, and anything
else is converted call by call. -/
def convertPart (scheme : Scheme) (text : List Char) : List Char :=
  match scheme.turnSum? text with
  | some turned => turned
  | none => scheme.convertCalls true text

/-- The conversion of the body of a call. -/
def convertBody (scheme : Scheme) (function : MathFunction) (body : List Char) : List Char :=
  match function with
  | .calc => scheme.convertPart body
  | .clamp =>
      [',', ' '].intercalate
        ((splitTopLevel ',' body).map fun argument => scheme.convertPart (trim argument))

theorem convertCalls_of_none (whole : Bool) {text : List Char} (noCall : firstCall? text = none) :
    scheme.convertCalls whole text =
      match if whole then scheme.turnSum? text else none with
      | some turned => turned
      | none => scheme.swapUnits text := by
  rw [convertCalls]
  split
  · rfl
  · rename_i found
    rw [noCall] at found
    cases found

theorem convertCalls_of_some (whole : Bool) {text : List Char} {call : Call}
    (found : firstCall? text = some call) :
    scheme.convertCalls whole text =
      scheme.swapUnits call.before ++ call.name ++
        '(' :: scheme.convertBody call.function call.body ++
          ')' :: scheme.convertCalls false call.after := by
  rw [convertCalls]
  split
  · rename_i noCall
    rw [noCall] at found
    cases found
  · rename_i first isFirst
    obtain rfl : first = call := Option.some.inj (isFirst.symm.trans found)
    unfold convertBody
    cases first.function
    · rfl
    · have ofArguments : (splitTopLevel ',' first.body).attach.map
            (fun argument => scheme.convertPart (trim argument.1)) =
          (splitTopLevel ',' first.body).map fun argument => scheme.convertPart (trim argument) :=
        List.attach_map_val (f := fun argument => scheme.convertPart (trim argument))
      exact congrArg
        (fun parts => scheme.swapUnits first.before ++ first.name ++
          '(' :: [',', ' '].intercalate parts ++ ')' :: scheme.convertCalls false first.after)
        ofArguments

end Scheme

end Value

end ContainerPreview
