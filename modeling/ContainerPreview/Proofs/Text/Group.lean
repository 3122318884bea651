import ContainerPreview.Proofs.Text.Trim
import ContainerPreview.Text.Paren
import ContainerPreview.Text.Split

/-!
# Groups and joined parts

A group and what comes after it make up the text that they are taken from, and so do the parts
that a text is split into, joined by the separator.  Where a parenthesis is closed is told by
the parentheses of a text alone.
-/

namespace ContainerPreview.Text

/-! ## The parts of a text -/

theorem eq_of_closingFrom {depth : Int} {text : List Char} {stop : Nat}
    (found : closingFrom depth text = some stop) :
    text = text.take stop ++ ')' :: text.drop (stop + 1) := by
  induction text generalizing depth stop with
  | nil => cases found
  | cons c text inductionHypothesis =>
      rw [closingFrom] at found
      split at found
      · obtain ⟨before, later, rfl⟩ := Option.map_eq_some_iff.mp found
        exact congrArg (c :: ·) (inductionHypothesis later)
      · split at found
        · rename_i isClosing
          obtain rfl : c = ')' := by simpa using isClosing
          split at found
          · cases found
            rfl
          · obtain ⟨before, later, rfl⟩ := Option.map_eq_some_iff.mp found
            exact congrArg (')' :: ·) (inductionHypothesis later)
        · obtain ⟨before, later, rfl⟩ := Option.map_eq_some_iff.mp found
          exact congrArg (c :: ·) (inductionHypothesis later)

/-- The body of a group, its closing parenthesis and the remainder make up the text. -/
theorem eq_of_closeGroup? {text body rest : List Char}
    (closed : closeGroup? text = some (body, rest)) : text = body ++ ')' :: rest := by
  obtain ⟨stop, found, same⟩ := Option.map_eq_some_iff.mp closed
  cases same
  exact eq_of_closingFrom found

theorem splitFrom_ne_nil (separator : Char) (scan : Scan) (text : List Char) :
    splitFrom separator scan text ≠ [] := by
  cases text with
  | nil => simp [splitFrom]
  | cons c text =>
      rw [splitFrom]
      split
      · simp
      · unfold consFirst
        split <;> simp

theorem intercalate_consFirst (separator : List Char) (c : Char) {parts : List (List Char)}
    (nonempty : parts ≠ []) :
    separator.intercalate (consFirst c parts) = c :: separator.intercalate parts := by
  obtain ⟨part, parts, rfl⟩ := List.exists_cons_of_ne_nil nonempty
  cases parts with
  | nil => simp [consFirst]
  | cons later parts => simp [consFirst, List.intercalate_cons_cons]

/-- The parts of a text joined by the separator are the text. -/
theorem intercalate_splitFrom (separator : Char) (scan : Scan) (text : List Char) :
    [separator].intercalate (splitFrom separator scan text) = text := by
  induction text generalizing scan with
  | nil => rfl
  | cons c text inductionHypothesis =>
      rw [splitFrom]
      split
      · rename_i splits
        obtain rfl : c = separator := by
          simp only [Scan.splitsAt, Bool.and_eq_true, beq_iff_eq] at splits
          exact splits.2
        obtain ⟨part, parts, isCons⟩ :=
          List.exists_cons_of_ne_nil (splitFrom_ne_nil c scan text)
        have ofRest := inductionHypothesis scan
        rw [isCons] at ofRest ⊢
        rw [List.intercalate_cons_cons, ofRest]
        rfl
      · rw [intercalate_consFirst _ c (splitFrom_ne_nil separator _ text), inductionHypothesis]

theorem mem_intercalate {separator part : List Char} {parts : List (List Char)} {c : Char}
    (isPart : part ∈ parts) (member : c ∈ part) : c ∈ separator.intercalate parts := by
  induction parts with
  | nil => cases isPart
  | cons first parts inductionHypothesis =>
      cases parts with
      | nil =>
          rw [List.mem_singleton] at isPart
          rw [List.intercalate_singleton, ← isPart]
          exact member
      | cons second parts =>
          rw [List.intercalate_cons_cons, List.mem_append, List.mem_append]
          rcases List.mem_cons.mp isPart with rfl | later
          · exact Or.inl (Or.inl member)
          · exact Or.inr (inductionHypothesis later)

theorem mem_of_mem_trim {text : List Char} {c : Char} (member : c ∈ trim text) : c ∈ text := by
  obtain ⟨left, right, same, -, -⟩ := exists_append_trim text
  rw [same]
  exact List.mem_append_left _ (List.mem_append_right _ member)

/-! ## Parentheses and commas -/

/-- The character is a parenthesis or a comma. -/
def isBone (c : Char) : Bool :=
  c == '(' || c == ')' || c == ','

/-- The parentheses and commas of a text. -/
def skeleton (text : List Char) : List Char :=
  text.filter isBone

theorem skeleton_cons_of_isBone {c : Char} (bone : isBone c) (text : List Char) :
    skeleton (c :: text) = c :: skeleton text :=
  List.filter_cons_of_pos bone

theorem skeleton_cons_of_not_isBone {c : Char} (notBone : isBone c = false) (text : List Char) :
    skeleton (c :: text) = skeleton text :=
  List.filter_cons_of_neg (by simp [notBone])

@[simp]
theorem skeleton_append (left right : List Char) :
    skeleton (left ++ right) = skeleton left ++ skeleton right :=
  List.filter_append left right

theorem closingFrom_cons (depth : Int) (c : Char) (text : List Char) :
    closingFrom depth (c :: text) =
      if c == ')' && depth == 1 then some 0
      else (closingFrom (if c == '(' then depth + 1 else if c == ')' then depth - 1 else depth)
        text).map (· + 1) := by
  rw [closingFrom]
  by_cases opens : c = '('
  · simp [opens]
  by_cases closes : c = ')'
  · by_cases last : depth = 1
    · simp [closes, last]
    · have notZero : depth - 1 ≠ 0 := by omega
      simp [closes, last, notZero]
  · simp [opens, closes]

/-- A character that is no parenthesis only moves the place where a group is closed. -/
theorem closingFrom_cons_of_not_isBone (depth : Int) {c : Char} (notBone : isBone c = false)
    (text : List Char) : closingFrom depth (c :: text) = (closingFrom depth text).map (· + 1) := by
  simp only [isBone, Bool.or_eq_false_iff] at notBone
  simp [closingFrom_cons, notBone]

/-- Whether a parenthesis is closed at the end of a text is told by the parentheses of the
text. -/
theorem closingFrom_skeleton_closing (depth : Int) (text rest : List Char) :
    closingFrom depth (text ++ ')' :: rest) = some text.length ↔
      closingFrom depth (skeleton text ++ [')']) = some (skeleton text).length := by
  induction text generalizing depth with
  | nil =>
      rw [List.nil_append, closingFrom_cons]
      change _ ↔ closingFrom depth [')'] = some 0
      rw [closingFrom_cons]
      split <;> simp
  | cons c text inductionHypothesis =>
      cases bone : isBone c with
      | false =>
          rw [skeleton_cons_of_not_isBone bone, List.cons_append,
            closingFrom_cons_of_not_isBone depth bone, ← inductionHypothesis]
          simp
      | true =>
          rw [skeleton_cons_of_isBone bone, List.cons_append, List.cons_append, closingFrom_cons,
            closingFrom_cons]
          split
          · simp
          · simp [inductionHypothesis]

/-- Whether a parenthesis is closed at all is told by the parentheses of the text. -/
theorem closingFrom_skeleton (depth : Int) (text : List Char) :
    closingFrom depth text = none ↔ closingFrom depth (skeleton text) = none := by
  induction text generalizing depth with
  | nil => rfl
  | cons c text inductionHypothesis =>
      cases bone : isBone c with
      | false =>
          rw [skeleton_cons_of_not_isBone bone, closingFrom_cons_of_not_isBone depth bone,
            Option.map_eq_none_iff, inductionHypothesis]
      | true =>
          rw [skeleton_cons_of_isBone bone, closingFrom_cons, closingFrom_cons]
          split
          · simp
          · rw [Option.map_eq_none_iff, Option.map_eq_none_iff, inductionHypothesis]

theorem closeGroup?_eq_some_iff {body rest : List Char} :
    closeGroup? (body ++ ')' :: rest) = some (body, rest) ↔
      closingFrom 1 (body ++ ')' :: rest) = some body.length := by
  rw [closeGroup?, Option.map_eq_some_iff]
  constructor
  · rintro ⟨stop, found, same⟩
    have within := closingFrom_lt_length found
    rw [Prod.mk.injEq] at same
    have sameLength := congrArg List.length same.1
    rw [List.length_take, Nat.min_eq_left (Nat.le_of_lt within)] at sameLength
    rw [found, sameLength]
  · intro found
    refine ⟨body.length, found, ?_⟩
    rw [List.take_left, ← List.drop_drop, List.drop_left]
    rfl

/-- A group is closed after another body with the same parentheses. -/
theorem closeGroup?_congr {body body' : List Char} (same : skeleton body' = skeleton body)
    {rest : List Char} (closed : closeGroup? (body ++ ')' :: rest) = some (body, rest))
    (rest' : List Char) : closeGroup? (body' ++ ')' :: rest') = some (body', rest') := by
  rw [closeGroup?_eq_some_iff, closingFrom_skeleton_closing] at closed ⊢
  rw [same]
  exact closed

theorem closeGroup?_eq_none_congr {text text' : List Char} (same : skeleton text' = skeleton text)
    (notClosed : closeGroup? text = none) : closeGroup? text' = none := by
  rw [closeGroup?, Option.map_eq_none_iff, closingFrom_skeleton] at notClosed ⊢
  rw [same]
  exact notClosed

end ContainerPreview.Text
