import ContainerPreview.Proofs.Text.Group

/-!
# Matching parentheses exactly

The height of a text is the number of parentheses that it opens, less those that it closes.  A
scan that has some parentheses open ends where the height has taken them all back.  So the closing
parenthesis of an opening one stands at the only place up to which as many parentheses are closed
as opened, and not earlier.  There is none if and only if more are opened than closed all the way
to the end.
-/

namespace ContainerPreview.Text

variable {text : List Char} {index start stop : Nat} {depth : Int}

/-! ## Heights -/

/-- By how much a character changes the number of open parentheses. -/
def rise (c : Char) : Int :=
  if c == '(' then 1 else if c == ')' then -1 else 0

/-- The parentheses that a text opens, less those that it closes. -/
def height : List Char → Int
  | [] => 0
  | c :: text => rise c + height text

@[simp]
theorem height_nil : height [] = 0 :=
  rfl

@[simp]
theorem height_cons (c : Char) (text : List Char) : height (c :: text) = rise c + height text :=
  rfl

theorem height_take_succ (depth : Int) (c : Char) (text : List Char) (count : Nat) :
    depth + height ((c :: text).take (count + 1)) = depth + rise c + height (text.take count) := by
  rw [List.take_succ_cons, height_cons]
  omega

theorem height_eq_count (text : List Char) : height text = text.count '(' - text.count ')' := by
  induction text with
  | nil => rfl
  | cons c text inductionHypothesis =>
      rw [height_cons, inductionHypothesis]
      by_cases opens : c = '('
      · subst opens
        simp [rise]
        omega
      · by_cases closes : c = ')'
        · subst closes
          simp [rise]
          omega
        · simp [rise, opens, closes]

/-- A character closes one parenthesis at most. -/
theorem neg_one_le_rise (c : Char) : -1 ≤ rise c := by
  unfold rise
  split
  · omega
  · split <;> omega

/-! ## The end of a scan -/

theorem closingFrom_cons_rise (isOpen : 0 < depth) (c : Char) (text : List Char) :
    closingFrom depth (c :: text) =
      if depth + rise c = 0 then some 0 else (closingFrom (depth + rise c) text).map (· + 1) := by
  rw [closingFrom]
  by_cases opens : c = '('
  · have notClosed : ¬ depth + 1 = 0 := by omega
    simp [opens, rise, notClosed]
  · by_cases closes : c = ')'
    · have same : depth - 1 = depth + -1 := rfl
      simp [closes, rise, same]
    · have notClosed : ¬ depth = 0 := by omega
      simp [opens, closes, rise, notClosed]

/-- Something is open all the way if it is open before the first character and from there on. -/
theorem forall_open_cons_iff {c : Char} :
    (∀ count ≤ stop + 1, 0 < depth + height ((c :: text).take count)) ↔
      0 < depth ∧ ∀ count ≤ stop, 0 < depth + rise c + height (text.take count) := by
  constructor
  · intro stillOpen
    refine ⟨by simpa using stillOpen 0 (Nat.zero_le _), fun count le => ?_⟩
    rw [← height_take_succ]
    exact stillOpen (count + 1) (Nat.succ_le_succ le)
  · rintro ⟨isOpen, stillOpen⟩ count le
    cases count with
    | zero => simpa using isOpen
    | succ count =>
        rw [height_take_succ]
        exact stillOpen count (Nat.le_of_succ_le_succ le)

/-- A scan ends where the height has taken back all that is open, and not before. -/
theorem closingFrom_eq_some_iff (isOpen : 0 < depth) :
    closingFrom depth text = some stop ↔
      stop < text.length ∧ depth + height (text.take (stop + 1)) = 0 ∧
        ∀ count ≤ stop, 0 < depth + height (text.take count) := by
  induction text generalizing depth stop with
  | nil => simp [closingFrom]
  | cons c text inductionHypothesis =>
      rw [closingFrom_cons_rise isOpen]
      split
      · rename_i closes
        rw [Option.some_inj]
        constructor
        · rintro rfl
          simpa [closes] using isOpen
        · rintro ⟨-, -, stillOpen⟩
          cases stop with
          | zero => rfl
          | succ stop =>
              have openAfterOne := stillOpen 1 (by omega)
              rw [height_take_succ, closes] at openAfterOne
              simp at openAfterOne
      · rename_i goesOn
        have isOpen' : 0 < depth + rise c := by
          have falls := neg_one_le_rise c
          omega
        rw [Option.map_eq_some_iff]
        constructor
        · rintro ⟨before, found, rfl⟩
          obtain ⟨within, isClosed, stillOpen⟩ := (inductionHypothesis isOpen').mp found
          refine ⟨Nat.succ_lt_succ within, ?_, forall_open_cons_iff.mpr ⟨isOpen, stillOpen⟩⟩
          rw [height_take_succ]
          exact isClosed
        · rintro ⟨within, isClosed, stillOpen⟩
          rw [height_take_succ] at isClosed
          cases stop with
          | zero =>
              rw [List.take_zero, height_nil] at isClosed
              omega
          | succ stop =>
              exact ⟨stop, (inductionHypothesis isOpen').mpr ⟨Nat.lt_of_succ_lt_succ within,
                isClosed, (forall_open_cons_iff.mp stillOpen).2⟩, rfl⟩

/-- A scan does not end if something is open all the way. -/
theorem closingFrom_eq_none_iff (isOpen : 0 < depth) :
    closingFrom depth text = none ↔
      ∀ count ≤ text.length, 0 < depth + height (text.take count) := by
  induction text generalizing depth with
  | nil => simpa [closingFrom] using isOpen
  | cons c text inductionHypothesis =>
      rw [closingFrom_cons_rise isOpen]
      split
      · rename_i closes
        constructor
        · intro found
          cases found
        · intro stillOpen
          have openAfterOne := stillOpen 1 (by simp)
          rw [height_take_succ, closes] at openAfterOne
          simp at openAfterOne
      · rename_i goesOn
        have isOpen' : 0 < depth + rise c := by
          have falls := neg_one_le_rise c
          omega
        rw [Option.map_eq_none_iff, inductionHypothesis isOpen', List.length_cons,
          forall_open_cons_iff]
        exact ⟨fun stillOpen => ⟨isOpen, stillOpen⟩, And.right⟩

/-! ## Groups -/

/-- The text from one index up to another one. -/
def slice (text : List Char) (start stop : Nat) : List Char :=
  (text.drop start).take (stop - start)

/-- More parentheses are opened than closed in every start of the text but the empty one. -/
def StaysOpen (text : List Char) : Prop :=
  ∀ front, front <+: text → front ≠ [] → front.count ')' < front.count '('

/-- As many parentheses are closed as opened in the whole text, but fewer in every shorter start of
it but the empty one. -/
structure IsGroup (text : List Char) : Prop where
  balanced : text.count '(' = text.count ')'
  isOpen : ∀ front, front <+: text → front ≠ [] → front ≠ text → front.count ')' < front.count '('

/-- The text between the indices, both included, is a group. -/
structure ClosesAt (text : List Char) (index stop : Nat) : Prop where
  le : index ≤ stop
  within : stop < text.length
  isGroup : IsGroup (slice text index (stop + 1))

theorem count_lt_count_iff : text.count ')' < text.count '(' ↔ 0 < height text := by
  rw [height_eq_count]
  omega

theorem count_eq_count_iff : text.count '(' = text.count ')' ↔ height text = 0 := by
  rw [height_eq_count]
  omega

theorem height_opening (text : List Char) : height ('(' :: text) = 1 + height text :=
  height_cons '(' text

theorem exists_take_of_prefix {front : List Char} (isPrefix : front <+: text) :
    ∃ count ≤ text.length, front = text.take count :=
  ⟨front.length, isPrefix.length_le, List.prefix_iff_eq_take.mp isPrefix⟩

/-- After an opening parenthesis something stays open if the rest never closes all. -/
theorem staysOpen_opening_iff :
    StaysOpen ('(' :: text) ↔ ∀ count ≤ text.length, 0 < 1 + height (text.take count) := by
  constructor
  · intro staysOpen count _
    rw [← height_opening, ← count_lt_count_iff]
    refine staysOpen _ ?_ (List.cons_ne_nil _ _)
    exact (List.prefix_cons_inj '(').mpr (List.take_prefix count text)
  · intro isOpen front isPrefix nonempty
    obtain rfl | ⟨rest, rfl, restPrefix⟩ := List.prefix_cons_iff.mp isPrefix
    · exact absurd rfl nonempty
    · obtain ⟨count, le, rfl⟩ := exists_take_of_prefix restPrefix
      rw [count_lt_count_iff, height_opening]
      exact isOpen count le

/-- An opening parenthesis and what follows it are a group if the rest closes all at its end for
the first time. -/
theorem isGroup_opening_iff (within : stop < text.length) :
    IsGroup ('(' :: text.take (stop + 1)) ↔
      1 + height (text.take (stop + 1)) = 0 ∧ ∀ count ≤ stop, 0 < 1 + height (text.take count) := by
  have takes : ∀ count ≤ text.length, (text.take count).length = count := fun count le => by
    rw [List.length_take, Nat.min_eq_left le]
  constructor
  · rintro ⟨balanced, isOpen⟩
    rw [count_eq_count_iff, height_opening] at balanced
    refine ⟨balanced, fun count le => ?_⟩
    rw [← height_opening, ← count_lt_count_iff]
    refine isOpen _ ?_ (List.cons_ne_nil _ _) fun same => ?_
    · exact (List.prefix_cons_inj '(').mpr (List.take_prefix_take_left (by omega))
    · have sameLength := congrArg List.length (List.cons.inj same).2
      rw [takes _ (by omega), takes _ (by omega)] at sameLength
      omega
  · rintro ⟨closes, stillOpen⟩
    constructor
    · rwa [count_eq_count_iff, height_opening]
    · intro front isPrefix nonempty shorter
      obtain rfl | ⟨rest, rfl, restPrefix⟩ := List.prefix_cons_iff.mp isPrefix
      · exact absurd rfl nonempty
      · obtain ⟨count, le, rfl⟩ := exists_take_of_prefix restPrefix
        rw [takes _ (by omega)] at le
        have notAll : count ≠ stop + 1 := by
          rintro rfl
          exact shorter (by rw [List.take_take, Nat.min_self])
        rw [List.take_take, Nat.min_eq_left le, count_lt_count_iff, height_opening]
        exact stillOpen count (by omega)

/-! ## The closing parenthesis of an opening one -/

theorem exists_drop_eq_cons (opens : text[index]? = some '(') :
    ∃ rest, text.drop index = '(' :: rest ∧ rest.length + index + 1 = text.length := by
  obtain ⟨inText, isOpening⟩ := List.getElem?_eq_some_iff.mp opens
  refine ⟨text.drop (index + 1), ?_, ?_⟩
  · rw [List.drop_eq_getElem_cons inText, isOpening]
  · rw [List.length_drop]
    omega

theorem closingParen?_of_drop {rest : List Char} (isRest : text.drop index = '(' :: rest) :
    closingParen? text index = (closingFrom 1 rest).map fun stop => index + (stop + 1) := by
  have opens : closingFrom 0 ('(' :: rest) = (closingFrom 1 rest).map (· + 1) := rfl
  rw [closingParen?, isRest, opens, Option.map_map]
  rfl

theorem closingParen?_eq_some_iff (opens : text[index]? = some '(') :
    closingParen? text index = some stop ↔ ClosesAt text index stop := by
  obtain ⟨rest, isRest, isLength⟩ := exists_drop_eq_cons opens
  rw [closingParen?_of_drop isRest, Option.map_eq_some_iff]
  have isSlice : ∀ count, slice text index (index + (count + 1) + 1) =
      '(' :: rest.take (count + 1) := by
    intro count
    have isLength : index + (count + 1) + 1 - index = count + 1 + 1 := by omega
    rw [slice, isRest, isLength, List.take_succ_cons]
  constructor
  · rintro ⟨count, found, rfl⟩
    obtain ⟨within, closes⟩ := (closingFrom_eq_some_iff Int.one_pos).mp found
    refine ⟨by omega, by omega, ?_⟩
    rw [isSlice]
    exact (isGroup_opening_iff within).mpr closes
  · rintro ⟨le, within, isGroup⟩
    have notAlone : stop ≠ index := by
      rintro rfl
      have isAlone : slice text stop (stop + 1) = ['('] := by
        rw [slice, isRest, Nat.add_sub_cancel_left]
        rfl
      rw [isAlone] at isGroup
      exact absurd isGroup.balanced (by decide)
    obtain ⟨count, rfl⟩ : ∃ count, stop = index + (count + 1) := ⟨stop - index - 1, by omega⟩
    have within' : count < rest.length := by omega
    rw [isSlice] at isGroup
    exact ⟨count, (closingFrom_eq_some_iff Int.one_pos).mpr
      ⟨within', (isGroup_opening_iff within').mp isGroup⟩, rfl⟩

theorem closingParen?_eq_none_iff (opens : text[index]? = some '(') :
    closingParen? text index = none ↔ StaysOpen (text.drop index) := by
  obtain ⟨rest, isRest, -⟩ := exists_drop_eq_cons opens
  rw [closingParen?_of_drop isRest, Option.map_eq_none_iff, closingFrom_eq_none_iff Int.one_pos,
    isRest, staysOpen_opening_iff]

namespace ClosesAt

/-- The closing parenthesis stands behind the opening one. -/
theorem closes (opens : text[index]? = some '(') (closesAt : ClosesAt text index stop) :
    index < stop ∧ text[stop]? = some ')' := by
  obtain ⟨rest, isRest, -⟩ := exists_drop_eq_cons opens
  have found := (closingParen?_eq_some_iff opens).mpr closesAt
  rw [closingParen?_of_drop isRest, Option.map_eq_some_iff] at found
  obtain ⟨count, found, rfl⟩ := found
  refine ⟨by omega, ?_⟩
  have isClosing : rest.drop count = ')' :: rest.drop (count + 1) := by
    have within := closingFrom_lt_length found
    have whole := congrArg (List.drop count) (eq_of_closingFrom found)
    rwa [List.drop_left' (by rw [List.length_take, Nat.min_eq_left (Nat.le_of_lt within)])] at whole
  rw [← List.head?_drop, ← List.drop_drop, isRest, List.drop_succ_cons, isClosing, List.head?_cons]

/-- An opening parenthesis is closed at one place at most. -/
theorem unique {other : Nat} (opens : text[index]? = some '(')
    (closesAt : ClosesAt text index stop) (closesAtOther : ClosesAt text index other) :
    other = stop := by
  rw [← closingParen?_eq_some_iff opens] at closesAt closesAtOther
  exact Option.some.inj (closesAtOther.symm.trans closesAt)

end ClosesAt

/-! ## Slices -/

theorem length_slice_le (text : List Char) (start stop : Nat) :
    (slice text start stop).length ≤ stop - start :=
  List.length_take_le _ _

/-- Two slices, the second of which begins where the first ends. -/
theorem slice_append_slice {middle : Nat} (le : start ≤ middle) (le' : middle ≤ stop) :
    slice text start middle ++ slice text middle stop = slice text start stop := by
  obtain ⟨count, rfl⟩ := Nat.exists_eq_add_of_le le
  obtain ⟨count', rfl⟩ := Nat.exists_eq_add_of_le le'
  have isWhole : start + count + count' - start = count + count' := by omega
  rw [slice, slice, slice, isWhole, Nat.add_sub_cancel_left, Nat.add_sub_cancel_left,
    List.take_add, List.drop_drop]

theorem slice_length (text : List Char) (start : Nat) :
    slice text start text.length = text.drop start := by
  rw [slice, ← List.length_drop, List.take_length]

theorem drop_add_of_drop {left right : List Char} (isDrop : text.drop start = left ++ right) :
    text.drop (start + left.length) = right := by
  rw [← List.drop_drop, isDrop, List.drop_left]

theorem slice_of_drop {left right : List Char} (isDrop : text.drop start = left ++ right) :
    slice text start (start + left.length) = left := by
  rw [slice, isDrop, Nat.add_sub_cancel_left, List.take_left]

end ContainerPreview.Text
