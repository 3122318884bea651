import ContainerPreview.Proofs.Media.FormulaBound

/-!
# Innermost groups

Whether or not the parentheses of a text match, it has innermost groups: an opening
parenthesis, no parenthesis, and a closing one.  A text is such a group and more text, or it
begins with something else; bounding comparisons, squeezing and trimming all go along this
division, and so do the innermost groups that are left by them.
-/

namespace ContainerPreview.Media

open Text

/-! ## The groups of a text -/

/-- The insides of the innermost groups of a text.  `opened` is what has come since the last
opening parenthesis, unless another parenthesis has come after it. -/
def innermostFrom : Option (List Char) → List Char → List (List Char)
  | _, [] => []
  | opened, c :: text =>
      if c == '(' then innermostFrom (some []) text
      else if c == ')' then opened.toList ++ innermostFrom none text
      else innermostFrom (opened.map (· ++ [c])) text

/-- The insides of the innermost groups of a text. -/
def innermost (text : List Char) : List (List Char) :=
  innermostFrom none text

@[simp]
theorem innermost_nil : innermost [] = [] :=
  rfl

theorem innermostFrom_ungrouped {between : List Char} (noGroup : ∀ c ∈ between, isUngrouped c)
    (opened : Option (List Char)) (rest : List Char) :
    innermostFrom opened (between ++ rest) = innermostFrom (opened.map (· ++ between)) rest := by
  induction between generalizing opened with
  | nil => simp
  | cons c between inductionHypothesis =>
      obtain ⟨here, noGroup⟩ := List.forall_mem_cons.mp noGroup
      simp only [isUngrouped, Bool.and_eq_true, bne_iff_ne] at here
      rw [List.cons_append, innermostFrom, if_neg (by simpa using here.1),
        if_neg (by simpa using here.2), inductionHypothesis noGroup]
      simp [Function.comp_def]

theorem innermostFrom_opening (opened : Option (List Char)) (rest : List Char) :
    innermostFrom opened ('(' :: rest) = innermostFrom (some []) rest :=
  rfl

theorem innermostFrom_closing (opened : Option (List Char)) (rest : List Char) :
    innermostFrom opened (')' :: rest) = opened.toList ++ innermost rest :=
  rfl

theorem innermostFrom_group (opened : Option (List Char)) {inside : List Char}
    (noGroup : ∀ c ∈ inside, isUngrouped c) (after : List Char) :
    innermostFrom opened ('(' :: (inside ++ ')' :: after)) = inside :: innermost after := by
  rw [innermostFrom_opening, innermostFrom_ungrouped noGroup, innermostFrom_closing]
  rfl

/-- Before anything is opened, only an opening parenthesis matters. -/
theorem innermost_cons {c : Char} (notOpening : c ≠ '(') (rest : List Char) :
    innermost (c :: rest) = innermost rest := by
  rw [innermost, innermostFrom, if_neg (by simpa using notOpening)]
  split <;> rfl

/-- Wherever a group without another group in it stands in a text, it is found. -/
theorem mem_innermostFrom (opened : Option (List Char)) (left : List Char) {inside : List Char}
    (noGroup : ∀ c ∈ inside, isUngrouped c) (right : List Char) :
    inside ∈ innermostFrom opened (left ++ '(' :: (inside ++ ')' :: right)) := by
  induction left generalizing opened with
  | nil =>
      rw [List.nil_append, innermostFrom_group opened noGroup]
      exact List.mem_cons_self
  | cons c left inductionHypothesis =>
      rw [List.cons_append, innermostFrom]
      split
      · exact inductionHypothesis _
      · split
        · exact List.mem_append_right _ (inductionHypothesis _)
        · exact inductionHypothesis _

/-! ## Going from group to group -/

/-- The first parenthesis of a text, if it has one, opens a group. -/
def Reopens (text : List Char) : Prop :=
  ∃ between rest, text = between ++ rest ∧ (∀ c ∈ between, isUngrouped c) ∧
    (rest = [] ∨ ∃ later, rest = '(' :: later)

theorem Reopens.innermostFrom {text : List Char} (reopens : Reopens text)
    (opened : Option (List Char)) : innermostFrom opened text = innermost text := by
  obtain ⟨between, rest, rfl, noGroup, isRest⟩ := reopens
  rw [innermost, innermostFrom_ungrouped noGroup, innermostFrom_ungrouped noGroup]
  rcases isRest with rfl | ⟨later, rfl⟩ <;> rfl

theorem mapGroups_opening (change : List Char → List Char) {rest : List Char}
    (reopens : Reopens rest) : mapGroups change ('(' :: rest) = '(' :: mapGroups change rest := by
  obtain ⟨between, last, rfl, noGroup, isLast⟩ := reopens
  rw [mapGroups, if_pos (beq_self_eq_true '(')]
  split
  · rename_i found
    rw [List.dropWhile_append_of_pos noGroup] at found
    rcases isLast with rfl | ⟨later, rfl⟩
    · cases found
    · rw [List.dropWhile_cons_of_neg (by decide)] at found
      cases found
  · rfl

theorem mapGroups_cons (change : List Char → List Char) {c : Char} (notOpening : c ≠ '(')
    (rest : List Char) : mapGroups change (c :: rest) = c :: mapGroups change rest :=
  Joined.mapGroups_append change (List.forall_mem_singleton.mpr notOpening) rest

/-- A text is empty, an innermost group and more text, a parenthesis that opens no innermost
group and more text, or another character and more text. -/
@[elab_as_elim]
theorem groupInduction {motive : List Char → Prop} (nil : motive [])
    (group : ∀ inside after, (∀ c ∈ inside, isUngrouped c) → motive after →
      motive ('(' :: (inside ++ ')' :: after)))
    (opening : ∀ rest, Reopens rest → motive rest → motive ('(' :: rest))
    (other : ∀ c rest, c ≠ '(' → motive rest → motive (c :: rest)) (text : List Char) :
    motive text := by
  fun_induction mapGroups id text with
  | case1 => exact nil
  | case2 c rest isOpening after found inductionHypothesis =>
      obtain rfl : c = '(' := by simpa using isOpening
      have isRest : rest = rest.takeWhile isUngrouped ++ ')' :: after := by
        rw [← found, List.takeWhile_append_dropWhile]
      rw [isRest]
      exact group _ after (fun c member => List.mem_takeWhile_imp member) inductionHypothesis
  | case3 c rest isOpening notFound inductionHypothesis =>
      obtain rfl : c = '(' := by simpa using isOpening
      refine opening rest ⟨rest.takeWhile isUngrouped, rest.dropWhile isUngrouped,
        List.takeWhile_append_dropWhile.symm, fun c member => List.mem_takeWhile_imp member, ?_⟩
        inductionHypothesis
      cases last : rest.dropWhile isUngrouped with
      | nil => exact .inl rfl
      | cons d later =>
          have isParenthesis : isUngrouped d = false := by
            have isHead := List.head?_dropWhile_not isUngrouped rest
            rw [last] at isHead
            exact isHead
          simp only [isUngrouped, Bool.and_eq_false_iff, bne_eq_false_iff_eq] at isParenthesis
          rcases isParenthesis with rfl | rfl
          · exact .inr ⟨later, rfl⟩
          · exact absurd last (notFound later)
  | case4 c rest notOpening inductionHypothesis =>
      exact other c rest (by simpa using notOpening) inductionHypothesis

/-- A change that leaves every innermost group as it is leaves the text as it is. -/
theorem mapGroups_of_fixed {change : List Char → List Char} {text : List Char}
    (fixed : ∀ inside ∈ innermost text, change inside = '(' :: (inside ++ [')'])) :
    mapGroups change text = text := by
  induction text using groupInduction with
  | nil => exact Joined.mapGroups_nil change
  | group inside after noGroup inductionHypothesis =>
      rw [innermost, innermostFrom_group none noGroup, List.forall_mem_cons] at fixed
      rw [Joined.mapGroups_group change noGroup, fixed.1, inductionHypothesis fixed.2]
      simp
  | opening rest reopens inductionHypothesis =>
      rw [innermost, innermostFrom_opening, reopens.innermostFrom] at fixed
      rw [mapGroups_opening change reopens, inductionHypothesis fixed]
  | other c rest notOpening inductionHypothesis =>
      rw [innermost_cons notOpening] at fixed
      rw [mapGroups_cons change notOpening, inductionHypothesis fixed]

/-! ## Bounded, squeezed and trimmed texts -/

theorem exists_boundComparisons_cons (rest : List Char) :
    ∃ later, boundComparisons ('(' :: rest) = '(' :: later := by
  rw [boundComparisons, mapGroups, if_pos (beq_self_eq_true '(')]
  split
  · rcases boundGroup_eq (rest.takeWhile isUngrouped) with ⟨_, -, isGroup⟩ | ⟨_, _, -, isGroup, -⟩
    · exact ⟨_, by rw [isGroup]; rfl⟩
    · exact ⟨_, by rw [isGroup]; rfl⟩
  · exact ⟨_, rfl⟩

theorem Reopens.boundComparisons {text : List Char} (reopens : Reopens text) :
    Reopens (boundComparisons text) := by
  obtain ⟨between, rest, rfl, noGroup, isRest⟩ := reopens
  refine ⟨between, Media.boundComparisons rest, ?_, noGroup, ?_⟩
  · refine Joined.mapGroups_append boundGroup (fun c member => ?_) rest
    rintro rfl
    exact absurd (noGroup _ member) (by decide)
  · rcases isRest with rfl | ⟨later, rfl⟩
    · exact .inl (Joined.mapGroups_nil boundGroup)
    · exact .inr (exists_boundComparisons_cons later)

theorem isUngrouped_squeezeFrom {within : Bool} {text : List Char}
    (noGroup : ∀ c ∈ text, isUngrouped c) : ∀ c ∈ squeezeFrom within text, isUngrouped c := by
  intro c member
  rcases mem_squeezeFrom member with inText | rfl
  · exact noGroup c inText
  · decide

theorem squeezeFrom_cons_of_not_blank (within : Bool) {c : Char} (notBlank : isBlank c = false)
    (rest : List Char) : squeezeFrom within (c :: rest) = c :: squeeze rest := by
  rw [squeezeFrom, notBlank]
  rfl

theorem Reopens.squeeze {text : List Char} (reopens : Reopens text) :
    Reopens (squeeze text) := by
  obtain ⟨between, rest, rfl, noGroup, isRest⟩ := reopens
  rcases isRest with rfl | ⟨later, rfl⟩
  · rw [List.append_nil]
    exact ⟨_, [], (List.append_nil _).symm, isUngrouped_squeezeFrom noGroup, .inl rfl⟩
  · exact ⟨Text.squeeze between, _, squeezeFrom_append false between (by decide) later,
      isUngrouped_squeezeFrom noGroup, .inr ⟨_, rfl⟩⟩

/-- Squeezing a text squeezes the insides of its innermost groups. -/
theorem innermost_squeezeFrom (within : Bool) (text : List Char) :
    innermost (squeezeFrom within text) = (innermost text).map squeeze := by
  induction text using groupInduction generalizing within with
  | nil => rfl
  | group inside after noGroup inductionHypothesis =>
      have isSqueezed : squeeze (inside ++ ')' :: after) = squeeze inside ++ ')' :: squeeze after :=
        squeezeFrom_append false inside (by decide) after
      have noGroup' : ∀ c ∈ squeeze inside, isUngrouped c := isUngrouped_squeezeFrom noGroup
      have ofAfter : innermost (squeeze after) = (innermost after).map squeeze :=
        inductionHypothesis false
      rw [squeezeFrom_cons_of_not_blank within (by decide), isSqueezed, innermost, innermost,
        innermostFrom_group none noGroup', innermostFrom_group none noGroup, ofAfter,
        List.map_cons]
  | opening rest reopens inductionHypothesis =>
      rw [squeezeFrom_cons_of_not_blank within (by decide), innermost, innermost,
        innermostFrom_opening, innermostFrom_opening, reopens.squeeze.innermostFrom,
        reopens.innermostFrom, squeeze, inductionHypothesis]
  | other c rest notOpening inductionHypothesis =>
      rw [innermost_cons notOpening, squeezeFrom]
      split
      · split
        · exact inductionHypothesis true
        · rw [innermost_cons (by decide), inductionHypothesis]
      · rw [innermost_cons notOpening, inductionHypothesis]

theorem innermostFrom_append_ungrouped {after : List Char} (noGroup : ∀ c ∈ after, isUngrouped c)
    (opened : Option (List Char)) (text : List Char) :
    innermostFrom opened (text ++ after) = innermostFrom opened text := by
  induction text generalizing opened with
  | nil =>
      have isEnd := innermostFrom_ungrouped noGroup opened []
      rw [List.append_nil] at isEnd
      rw [List.nil_append, isEnd]
      rfl
  | cons c text inductionHypothesis =>
      rw [List.cons_append, innermostFrom, innermostFrom]
      simp only [inductionHypothesis]

theorem innermost_trim (text : List Char) : innermost (trim text) = innermost text := by
  obtain ⟨left, right, same, leftBlank, rightBlank⟩ := exists_append_trim text
  conv_rhs => rw [same]
  rw [innermost, innermost, innermostFrom_append_ungrouped
    (fun c member => isUngrouped_of_isBlank (rightBlank c member)),
    innermostFrom_ungrouped fun c member => isUngrouped_of_isBlank (leftBlank c member)]
  rfl

end ContainerPreview.Media
