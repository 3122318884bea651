import ContainerPreview.Proofs.Text.Trim

/-!
# Squeezed texts

Squeezing replaces runs of blanks by single spaces.  It goes on anew after every character
that is not blank, so a text can be squeezed part by part; and it does not matter whether a
text is trimmed before or after it.
-/

namespace ContainerPreview.Text

theorem squeezeFrom_of_blanks (within : Bool) {blanks : List Char}
    (areBlank : ∀ c ∈ blanks, isBlank c) : ∀ c ∈ squeezeFrom within blanks, isBlank c := by
  induction blanks generalizing within with
  | nil => exact areBlank
  | cons c blanks inductionHypothesis =>
      obtain ⟨blank, areBlank⟩ := List.forall_mem_cons.mp areBlank
      rw [squeezeFrom, if_pos blank]
      split
      · exact inductionHypothesis true areBlank
      · exact List.forall_mem_cons.mpr ⟨by decide, inductionHypothesis true areBlank⟩

/-- Squeezing goes on anew after a character that is not blank. -/
theorem squeezeFrom_append (within : Bool) (left : List Char) {c : Char}
    (notBlank : isBlank c = false) (right : List Char) :
    squeezeFrom within (left ++ c :: right) =
      squeezeFrom within left ++ c :: squeezeFrom false right := by
  induction left generalizing within with
  | nil => simp [squeezeFrom, notBlank]
  | cons d left inductionHypothesis =>
      rw [List.cons_append, squeezeFrom, squeezeFrom]
      split
      · split
        · exact inductionHypothesis true
        · rw [inductionHypothesis true, List.cons_append]
      · rw [inductionHypothesis false, List.cons_append]

theorem squeezeFrom_of_noBlank (within : Bool) {text : List Char}
    (noBlank : ∀ c ∈ text, isBlank c = false) : squeezeFrom within text = text := by
  induction text generalizing within with
  | nil => rfl
  | cons c text inductionHypothesis =>
      obtain ⟨notBlank, noBlank⟩ := List.forall_mem_cons.mp noBlank
      rw [squeezeFrom, notBlank, inductionHypothesis false noBlank]
      rfl

/-- What is squeezed once stays as it is.  After a run that has been written a squeezed text
begins with no blank. -/
theorem squeezeFrom_squeezeFrom (within : Bool) (text : List Char) :
    squeezeFrom within (squeezeFrom within text) = squeezeFrom within text := by
  induction text generalizing within with
  | nil => rfl
  | cons c text inductionHypothesis =>
      rw [squeezeFrom]
      split
      · cases within with
        | true => exact inductionHypothesis true
        | false => simp [squeezeFrom, inductionHypothesis true, show isBlank ' ' = true by decide]
      · rename_i notBlank
        rw [squeezeFrom, if_neg notBlank, inductionHypothesis false]

/-- A text that neither begins nor ends with a blank. -/
def IsTrimmed (text : List Char) : Prop :=
  (∀ c ∈ text.head?, isBlank c = false) ∧ ∀ c ∈ text.getLast?, isBlank c = false

theorem trimStart_append_of_blanks {blanks : List Char} (areBlank : ∀ c ∈ blanks, isBlank c)
    (text : List Char) : trimStart (blanks ++ text) = trimStart text :=
  List.dropWhile_append_of_pos areBlank

theorem trimStart_of_head {text : List Char} (notBlank : ∀ c ∈ text.head?, isBlank c = false) :
    trimStart text = text := by
  cases text with
  | nil => rfl
  | cons c text => exact List.dropWhile_cons_of_neg (by simp [notBlank c rfl])

/-- What stands between blanks is trimmed to itself. -/
theorem trim_between {left text right : List Char} (leftBlank : ∀ c ∈ left, isBlank c)
    (isTrimmed : IsTrimmed text) (rightBlank : ∀ c ∈ right, isBlank c) :
    trim (left ++ text ++ right) = text := by
  have endBlank : ∀ c ∈ right.reverse, isBlank c := fun c member =>
    rightBlank c (List.mem_reverse.mp member)
  rw [trim, List.append_assoc, trimStart_append_of_blanks leftBlank]
  cases text with
  | nil =>
      rw [List.nil_append, trimEnd]
      have none : trimStart right = [] := List.dropWhile_eq_nil_iff.mpr rightBlank
      rw [none]
      rfl
  | cons c text =>
      have isStart : trimStart (c :: text ++ right) = c :: text ++ right :=
        trimStart_of_head isTrimmed.1
      have isEnd : trimStart (c :: text).reverse = (c :: text).reverse :=
        trimStart_of_head fun d isHead => isTrimmed.2 d (by rwa [List.head?_reverse] at isHead)
      rw [isStart, trimEnd, List.reverse_append, trimStart_append_of_blanks endBlank, isEnd,
        List.reverse_reverse]

theorem trim_of_isTrimmed {text : List Char} (isTrimmed : IsTrimmed text) : trim text = text := by
  have whole := trim_between (List.forall_mem_nil _) isTrimmed (List.forall_mem_nil _)
  rwa [List.nil_append, List.append_nil] at whole

theorem head_trimStart (text : List Char) : ∀ c ∈ (trimStart text).head?, isBlank c = false := by
  intro c isHead
  have notBlank := List.head?_dropWhile_not isBlank text
  rw [trimStart] at isHead
  rw [isHead] at notBlank
  exact notBlank

theorem isTrimmed_trim (text : List Char) : IsTrimmed (trim text) := by
  constructor
  · rw [← trimStart_trim]
    exact head_trimStart (trim text)
  · rw [trim, trimEnd, List.getLast?_reverse]
    exact head_trimStart (trimStart text).reverse

theorem trim_of_blanks {blanks : List Char} (areBlank : ∀ c ∈ blanks, isBlank c) :
    trim blanks = [] := by
  have whole := trim_between areBlank (⟨by simp, by simp⟩ : IsTrimmed []) (List.forall_mem_nil _)
  rwa [List.append_nil, List.append_nil] at whole

/-- Squeezing goes on anew at a character that is not blank. -/
theorem squeezeFrom_append_of_head (within : Bool) (left : List Char) {right : List Char}
    (nonempty : right ≠ []) (notBlank : ∀ c ∈ right.head?, isBlank c = false) :
    squeezeFrom within (left ++ right) = squeezeFrom within left ++ squeeze right := by
  obtain ⟨c, right, rfl⟩ := List.exists_cons_of_ne_nil nonempty
  have isFirst := squeezeFrom_append false [] (notBlank c rfl) right
  rw [squeezeFrom_append within left (notBlank c rfl), squeeze]
  exact congrArg (squeezeFrom within left ++ ·) isFirst.symm

theorem squeezeFrom_append_of_last (within : Bool) {left : List Char} (nonempty : left ≠ [])
    (notBlank : ∀ c ∈ left.getLast?, isBlank c = false) (right : List Char) :
    squeezeFrom within (left ++ right) = squeezeFrom within left ++ squeeze right := by
  obtain ⟨start, d, rfl⟩ := (List.eq_nil_or_concat' left).resolve_left nonempty
  have notBlank : isBlank d = false := notBlank d (List.getLast?_concat ..)
  rw [List.append_assoc, List.singleton_append, squeezeFrom_append within start notBlank,
    squeezeFrom_append within start notBlank []]
  simp [squeezeFrom, squeeze]

theorem isTrimmed_squeeze {text : List Char} (isTrimmed : IsTrimmed text) :
    IsTrimmed (squeeze text) := by
  rcases List.eq_nil_or_concat' text with rfl | ⟨start, d, rfl⟩
  · exact isTrimmed
  · have notBlank : isBlank d = false := isTrimmed.2 d (List.getLast?_concat ..)
    constructor
    · cases start with
      | nil => simp [squeeze, squeezeFrom, notBlank]
      | cons c start =>
          have isFirst := squeezeFrom_append false [] (isTrimmed.1 c rfl) (start ++ [d])
          rw [List.nil_append, ← List.cons_append] at isFirst
          rw [squeeze, isFirst]
          exact isTrimmed.1
    · rw [squeeze, squeezeFrom_append false start notBlank [], squeezeFrom]
      intro c isLast
      rw [List.getLast?_concat] at isLast
      obtain rfl : d = c := Option.some.inj isLast
      exact notBlank

/-- Trimming and squeezing can be done in either order. -/
theorem trim_squeeze (text : List Char) : trim (squeeze text) = squeeze (trim text) := by
  obtain ⟨left, right, same, leftBlank, rightBlank⟩ := exists_append_trim text
  have isTrimmed := isTrimmed_trim text
  generalize trim text = middle at same isTrimmed
  subst same
  cases middle with
  | nil =>
      rw [List.append_nil]
      refine trim_of_blanks (squeezeFrom_of_blanks false fun c member => ?_)
      exact (List.mem_append.mp member).elim (leftBlank c) (rightBlank c)
  | cons c middle =>
      have nonempty : c :: middle ≠ [] := List.cons_ne_nil c middle
      have fromMiddle : squeeze (left ++ (c :: middle ++ right)) =
          squeeze left ++ squeeze (c :: middle ++ right) :=
        squeezeFrom_append_of_head false left (List.cons_ne_nil c _) isTrimmed.1
      have toMiddle : squeeze (c :: middle ++ right) = squeeze (c :: middle) ++ squeeze right :=
        squeezeFrom_append_of_last false nonempty isTrimmed.2 right
      have parts : squeeze (left ++ (c :: middle) ++ right) =
          squeeze left ++ squeeze (c :: middle) ++ squeeze right := by
        rw [List.append_assoc, fromMiddle, toMiddle, List.append_assoc]
      rw [parts]
      exact trim_between (squeezeFrom_of_blanks false leftBlank) (isTrimmed_squeeze isTrimmed)
        (squeezeFrom_of_blanks false rightBlank)

end ContainerPreview.Text
