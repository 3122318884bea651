import ContainerPreview.Proofs.Css.Kind

/-!
# Calm signs

A calm sign is one whose text stands for itself: it has no backslash in it, unless it is a
string or a comment, and no blank that is none between tokens.  Written again, it is cut from
any text that meets none of its bars.  What is written after it is not the text that followed
it, but one that follows the same bars: nothing but what that text met is met by the new one.
-/

namespace ContainerPreview.Css

open Text

/-! ## Calm signs -/

/-- A character that stands for itself in a sign. -/
def isCalmChar (c : Char) : Bool :=
  c != '\\' && !isBlank c

/-- A sign whose text stands for itself.  Given are the text that it was cut from and what
follows that. -/
def Sign.isCalm (taken rest : List Char) : Sign → Bool
  | .lexeme (.blank _) | .lexeme (.comment _) => true
  | .lexeme (.string _ closed) => closed
  | .lexeme (.address _ closed) => closed && taken.all (· != '\\')
  | .lexeme (.dimension _ unit) => taken.all isCalmChar && writeUnit unit == unit
  | .lexeme (.codeRange _ _) => !continuesRange rest
  | .lexeme (.flaw _) => false
  | _ => taken.all isCalmChar

/-- A sign that may hold a backslash although it is calm, or that never holds one. -/
def Sign.isExempt : Sign → Bool
  | .lexeme (.blank _) | .lexeme (.comment _) | .lexeme (.string _ _) | .lexeme (.codeRange _ _) => true
  | _ => false

theorem Sign.notExempt_of_isOrdinary {sign : Sign} (ordinary : sign.isOrdinary) :
    sign.isExempt = false := by
  unfold isExempt
  split
  · cases ordinary
  · cases ordinary
  · cases ordinary
  · cases ordinary
  · rfl

/-- A sign that is written as it was if it is calm. -/
def Sign.isVerbatim : Sign → Bool
  | .lexeme (.address _ _) => false
  | sign => !sign.isExempt

/-! ## What follows a sign -/

/-- A character that no sign goes on with. -/
def isStop (c : Char) : Bool :=
  ['"', '/', ')', ']', '\x7d', ';', ':', ' ', '\n'].contains c

/-- A letter that a range of code points or an address begins with. -/
def isLeadLetter (c : Char) : Bool :=
  c == 'u' || c == 'U'

/-- A text that signs do not go on with unless they go on with another one: it is the same up to
a character that no sign goes on with, or up to the letter in front of a name. -/
inductive Follows : List Char → List Char → Prop where
  | stop {text other : List Char} (stops : ∀ c ∈ text.head?, isStop c) : Follows text other
  | letter {c d : Char} {text other : List Char} (isLetter : isLeadLetter c)
      (isLetter' : isLeadLetter d) : Follows (c :: text) (d :: other)
  | same (c : Char) {text other : List Char} (later : Follows text other) :
      Follows (c :: text) (c :: other)

theorem Follows.append {text other : List Char} (follows : Follows text other) (front : List Char) :
    Follows (front ++ text) (front ++ other) := by
  induction front with
  | nil => exact follows
  | cons c front inductionHypothesis => exact .same c inductionHypothesis

/-- A bar that neither stops nor the letter in front of a name can tell apart. -/
structure Bar.IsFair (bar : Bar) : Prop where
  stop : ∀ c, isStop c → c ∉ bar.marks ∧ bar.last c = false
  letter : ∀ c, isLeadLetter c → c ∉ bar.marks
  same : bar.last 'u' = bar.last 'U'

/-- What meets a fair bar, follows a text that does. -/
theorem Follows.meets {text other : List Char} (follows : Follows text other) {bar : Bar}
    (fair : bar.IsFair) (meets : bar.Meets text) : bar.Meets other := by
  obtain ⟨marks, last⟩ := bar
  induction follows generalizing marks with
  | stop stops =>
      obtain ⟨c, rest, rfl, isLast⟩ := meets
      cases marks with
      | nil =>
          have notLast := (fair.stop c (stops c rfl)).2
          rw [notLast] at isLast
          cases isLast
      | cons mark marks => exact absurd List.mem_cons_self (fair.stop mark (stops mark rfl)).1
  | @letter c d text other isLetter isLetter' =>
      cases marks with
      | nil =>
          rw [Bar.meets_nil] at meets ⊢
          have sameLast : last c = last d := by
            have same := fair.same
            simp only [isLeadLetter, Bool.or_eq_true, beq_iff_eq] at isLetter isLetter'
            rcases isLetter with rfl | rfl <;> rcases isLetter' with rfl | rfl <;>
              first | rfl | exact same | exact same.symm
          rw [List.head?_cons, Option.any_some, ← sameLast]
          exact meets
      | cons mark marks =>
          obtain ⟨rest, isText, -⟩ := Bar.meets_cons.mp meets
          obtain ⟨rfl, rfl⟩ := List.cons.inj isText
          exact absurd List.mem_cons_self (fair.letter c isLetter)
  | @same c text other later inductionHypothesis =>
      cases marks with
      | nil =>
          rw [Bar.meets_nil] at meets ⊢
          exact meets
      | cons mark marks =>
          obtain ⟨rest, isText, meets⟩ := Bar.meets_cons.mp meets
          obtain ⟨rfl, rfl⟩ := List.cons.inj isText
          refine Bar.meets_cons.mpr ⟨other, rfl, inductionHypothesis marks ⟨?_, ?_, fair.same⟩ meets⟩
          · exact fun d isStop =>
              ⟨fun member => (fair.stop d isStop).1 (List.mem_cons_of_mem _ member),
                (fair.stop d isStop).2⟩
          · exact fun d isLetter member => fair.letter d isLetter (List.mem_cons_of_mem _ member)

/-- A bar is fair if the few characters in question say so. -/
theorem Bar.isFair_of_all {bar : Bar}
    (stops : ['"', '/', ')', ']', '\x7d', ';', ':', ' ', '\n'].all
      (fun c => !bar.marks.contains c && !bar.last c))
    (letters : !bar.marks.contains 'u' && !bar.marks.contains 'U')
    (same : bar.last 'u' = bar.last 'U') : bar.IsFair := by
  refine ⟨fun c isStop => ?_, fun c isLetter member => ?_, same⟩
  · rw [Css.isStop, List.contains_iff_mem] at isStop
    simpa using List.all_eq_true.mp stops c isStop
  · simp only [isLeadLetter, Bool.or_eq_true, beq_iff_eq] at isLetter
    simp only [Bool.and_eq_true, Bool.not_eq_true', ← Bool.not_eq_true, List.contains_iff_mem]
      at letters
    rcases isLetter with rfl | rfl
    · exact letters.1 member
    · exact letters.2 member

theorem isFair_of_mem_nameBars : ∀ bar ∈ nameBars, bar.IsFair := by
  simp only [nameBars, List.forall_mem_singleton]
  exact Bar.isFair_of_all (by decide) (by decide) (by decide)

theorem isFair_of_mem_identBars : ∀ bar ∈ identBars, bar.IsFair := by
  simp only [identBars, List.forall_mem_cons]
  exact ⟨Bar.isFair_of_all (by decide) (by decide) (by decide),
    Bar.isFair_of_all (by decide) (by decide) (by decide), List.forall_mem_nil _⟩

theorem isFair_of_mem_charBars (c : Char) : ∀ bar ∈ charBars c, bar.IsFair := by
  unfold charBars
  split_ifs
  all_goals try first | exact isFair_of_mem_identBars | exact isFair_of_mem_nameBars
  all_goals
    simp only [List.forall_mem_cons, List.not_mem_nil, false_implies, implies_true, and_true]
  all_goals
    repeat' apply And.intro
  all_goals exact Bar.isFair_of_all (by decide) (by decide) (by decide)

/-- All bars are fair, but for that of blanks. -/
theorem Sign.isFair_of_mem_bars {sign : Sign} (notBlank : ∀ text, sign ≠ .lexeme (.blank text)) :
    ∀ bar ∈ sign.bars, bar.IsFair := by
  unfold Sign.bars
  split
  · exact absurd rfl (notBlank _)
  · exact isFair_of_mem_charBars _
  · intro bar member
    rcases List.mem_append.mp member with member | member
    · rcases List.mem_cons.mp member with rfl | member
      · exact Bar.isFair_of_all (by decide) (by decide) (by decide)
      · exact isFair_of_mem_nameBars bar member
    · split_ifs at member
      · obtain rfl := List.mem_singleton.mp member
        exact Bar.isFair_of_all (by decide) (by decide) (by decide)
      · obtain rfl := List.mem_singleton.mp member
        exact Bar.isFair_of_all (by decide) (by decide) (by decide)
      · cases member
  · exact isFair_of_mem_nameBars
  · exact isFair_of_mem_nameBars
  · exact isFair_of_mem_nameBars
  · intro bar member
    rcases List.mem_append.mp member with member | member
    · rcases List.mem_cons.mp member with rfl | member
      · exact Bar.isFair_of_all (by decide) (by decide) (by decide)
      · exact isFair_of_mem_identBars bar member
    · split_ifs at member
      · obtain rfl := List.mem_singleton.mp member
        exact Bar.isFair_of_all (by decide) (by decide) (by decide)
      · cases member
  · simp only [List.forall_mem_cons]
    exact ⟨Bar.isFair_of_all (by decide) (by decide) (by decide),
      Bar.isFair_of_all (by decide) (by decide) (by decide), List.forall_mem_nil _⟩
  · exact List.forall_mem_nil _

end ContainerPreview.Css
