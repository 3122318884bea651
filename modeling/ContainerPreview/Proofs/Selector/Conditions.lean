import ContainerPreview.Proofs.Selector.Anchor
import ContainerPreview.Proofs.Value.Cut

/-!
# Conditions of a selector

A class, an id, an attribute or a pseudo-class begins with a sign of its own and goes on up to
the next such sign or to the end of the compound; inside groups and strings, and after a
backslash, neither counts.  Guarding replaces an anchor with all the conditions on its element
`html`, and keeps every other condition in every alternative.
-/

namespace ContainerPreview.Selector

open Text

/-! ## Reading conditions -/

/-- Where the reading of a selector stands: the scan over groups and strings, whether a
backslash has taken the next character, and the condition that is being read. -/
structure Reading where
  scan : Scan := Scan.start
  escaped : Bool := false
  written : Option (List Char) := none
deriving DecidableEq, Repr

namespace Reading

/-- No condition is being read. -/
def outside : Reading := {}

/-- The next character stands outside groups and strings and counts for the selector. -/
def atTop (reading : Reading) : Bool :=
  reading.scan == Scan.start && !reading.escaped

/-- The condition that is being read ends before the character.  Two colons begin one
condition. -/
def cuts (reading : Reading) (c : Char) : Bool :=
  reading.atTop &&
    (endsCompound c || startsCondition c && !(c == ':' && reading.written == some [':']))

/-- The character is a backslash outside strings, which takes the next one. -/
def escapes (reading : Reading) (c : Char) : Bool :=
  !reading.escaped && reading.scan.isPlain && c == '\\'

/-- The reading after one more character. -/
def step (reading : Reading) (c : Char) : Reading where
  scan := if reading.escaped || reading.escapes c then reading.scan else reading.scan.step c
  escaped := reading.escapes c
  written :=
    if reading.cuts c then (if startsCondition c then some [c] else none)
    else reading.written.map (· ++ [c])

/-- The reading after a text. -/
def after (reading : Reading) (text : List Char) : Reading :=
  text.foldl step reading

/-- The conditions that end within a text. -/
def ended : Reading → List Char → List (List Char)
  | _, [] => []
  | reading, c :: text =>
      (if reading.cuts c then reading.written.toList else []) ++ ended (reading.step c) text

/-- The conditions that end within a text or with it. -/
def conditions (reading : Reading) (text : List Char) : List (List Char) :=
  reading.ended text ++ (reading.after text).written.toList

end Reading

/-- The conditions written in a selector. -/
def conditionsOf (selector : List Char) : List (List Char) :=
  Reading.outside.conditions selector

namespace Reading

variable {reading : Reading} {text condition : List Char} {c : Char}

theorem after_append (reading : Reading) (left right : List Char) :
    reading.after (left ++ right) = (reading.after left).after right :=
  List.foldl_append

theorem ended_append (reading : Reading) (left right : List Char) :
    reading.ended (left ++ right) = reading.ended left ++ (reading.after left).ended right := by
  induction left generalizing reading with
  | nil => rfl
  | cons c left inductionHypothesis =>
      rw [List.cons_append, ended, ended, inductionHypothesis, List.append_assoc]
      rfl

theorem conditions_append (reading : Reading) (left right : List Char) :
    reading.conditions (left ++ right) =
      reading.ended left ++ (reading.after left).conditions right := by
  rw [conditions, conditions, ended_append, after_append, List.append_assoc]

theorem conditions_cons (reading : Reading) (c : Char) (text : List Char) :
    reading.conditions (c :: text) =
      (if reading.cuts c then reading.written.toList else []) ++
        (reading.step c).conditions text :=
  List.append_assoc ..

theorem conditionsOf_cons (c : Char) (text : List Char) :
    conditionsOf (c :: text) = (outside.step c).conditions text := by
  have noneOpen : (if outside.cuts c then outside.written.toList else []) = [] := ite_self _
  rw [conditionsOf, conditions_cons, noneOpen, List.nil_append]

/-- A condition stands in the text, unless it had been begun before it. -/
theorem infix_of_mem_conditions (member : condition ∈ reading.conditions text) :
    condition <:+: reading.written.getD [] ++ text := by
  induction text generalizing reading with
  | nil =>
      have isWritten : reading.written = some condition := by
        simpa [conditions, ended, after] using member
      simp [isWritten]
  | cons c text inductionHypothesis =>
      rw [conditions_cons, List.mem_append] at member
      rcases member with isWritten | later
      · split at isWritten
        · rw [Option.mem_toList] at isWritten
          rw [isWritten]
          exact (List.prefix_append condition (c :: text)).isInfix
        · cases isWritten
      · have stands := inductionHypothesis later
        simp only [step] at stands
        split at stands
        · split at stands
          · exact stands.trans (List.suffix_append _ (c :: text)).isInfix
          · exact (stands.trans (List.suffix_cons c text).isInfix).trans
              (List.suffix_append _ (c :: text)).isInfix
        · cases isWritten : reading.written with
          | none =>
              rw [isWritten] at stands
              exact stands.trans (List.suffix_cons c text).isInfix
          | some written =>
              rw [isWritten] at stands
              simpa using stands

/-! ## Texts that are read one by one -/

theorem step_outside {c : Char} (idle : Scan.counts c = false)
    (notSign : startsCondition c = false) : outside.step c = outside := by
  obtain ⟨-, -, -, -, -, -, -, notBackslash⟩ := Scan.ne_of_not_counts idle
  have isScan : Scan.start.step c = Scan.start := Scan.step_of_not_counts Scan.sound_start idle
  simp [step, outside, escapes, notBackslash, notSign, isScan]

/-- Reading goes on outside conditions over characters that neither begin a condition nor count
for the scan. -/
theorem after_outside (idle : ∀ c ∈ text, Scan.counts c = false ∧ startsCondition c = false) :
    outside.after text = outside ∧ conditionsOf text = [] := by
  induction text with
  | nil => exact ⟨rfl, rfl⟩
  | cons c text inductionHypothesis =>
      obtain ⟨⟨here, notSign⟩, idle⟩ := List.forall_mem_cons.mp idle
      obtain ⟨isOutside, noCondition⟩ := inductionHypothesis idle
      rw [conditionsOf_cons, after, List.foldl_cons, step_outside here notSign]
      exact ⟨isOutside, noCondition⟩

/-- Conditions after a text that the reading leaves are those of what follows it. -/
theorem conditionsOf_append {left : List Char} (isOutside : outside.after left = outside)
    (right : List Char) :
    conditionsOf (left ++ right) = conditionsOf left ++ conditionsOf right := by
  have noneOpen : conditionsOf left = outside.ended left := by
    rw [conditionsOf, conditions, isOutside]
    exact List.append_nil _
  rw [noneOpen, conditionsOf, conditions_append, isOutside]
  rfl

theorem notSign_of_isBlank {c : Char} (blank : isBlank c) : startsCondition c = false := by
  by_contra starts
  rw [Bool.not_eq_false] at starts
  rw [notBlank_of_startsCondition starts] at blank
  cases blank

theorem conditionsOf_blanks_append {blanks : List Char} (areBlank : ∀ c ∈ blanks, isBlank c) :
    conditionsOf (blanks ++ text) = conditionsOf text := by
  obtain ⟨isOutside, noCondition⟩ := after_outside fun c member =>
    ⟨Scan.counts_of_isBlank (areBlank c member), notSign_of_isBlank (areBlank c member)⟩
  rw [conditionsOf_append isOutside, noCondition, List.nil_append]

theorem class_of_isNameChar {c : Char} (isName : isNameChar c) :
    Scan.counts c = false ∧ startsCondition c = false := by
  refine ⟨Scan.counts_eq_false (by decide) isName, ?_⟩
  by_contra starts
  rw [Bool.not_eq_false] at starts
  simp only [startsCondition, Bool.or_eq_true, beq_iff_eq] at starts
  rcases starts with ((rfl | rfl) | rfl) | rfl <;> exact absurd isName (by decide)

end Reading

/-- A guard ends outside groups, strings and escapes, and not in the middle of the colons of a
pseudo-element. -/
def EndsClean (guard : List Char) : Prop :=
  (Reading.outside.after guard).atTop ∧ (Reading.outside.after guard).written ≠ some [':']

instance (guard : List Char) : Decidable (EndsClean guard) :=
  inferInstanceAs (Decidable (_ ∧ _))

namespace Reading

/-- What begins a condition or ends a compound is read behind a guard as it is by itself. -/
theorem conditionsOf_guard_append {guard right : List Char} (clean : EndsClean guard)
    (begins : ∀ c ∈ right.head?, endsCompound c ∨ startsCondition c) :
    conditionsOf (guard ++ right) = conditionsOf guard ++ conditionsOf right := by
  cases right with
  | nil => exact (congrArg conditionsOf (List.append_nil guard)).trans (List.append_nil _).symm
  | cons c right =>
      obtain ⟨atTop, notColon⟩ := clean
      have isCut : ∀ reading : Reading, reading.atTop → reading.written ≠ some [':'] →
          reading.cuts c := by
        intro reading atTop notColon
        have begins := begins c rfl
        simp only [cuts, atTop, Bool.true_and, Bool.or_eq_true, Bool.and_eq_true]
        exact begins.imp_right fun starts => ⟨starts, by simp [notColon]⟩
      have isStep : ∀ reading : Reading, reading.atTop → reading.written ≠ some [':'] →
          reading.step c = outside.step c := by
        intro reading atTop notColon
        have sameTop : reading.scan = Scan.start ∧ reading.escaped = false := by
          simpa [Reading.atTop] using atTop
        have outsideCut := isCut outside rfl (by decide)
        simp only [step, isCut reading atTop notColon, outsideCut, if_true]
        simp [escapes, sameTop, outside]
      rw [conditionsOf, conditions_append, conditions_cons, isCut _ atTop notColon,
        isStep _ atTop notColon, if_pos rfl, ← conditionsOf_cons, ← List.append_assoc]
      rfl

end Reading

/-! ## Conditions of alternatives -/

variable {selector guard kept entry condition : List Char}

theorem conditionsOf_guarded (clean : EndsClean guard) (guarded : Guarded guard kept entry) :
    conditionsOf entry = conditionsOf guard ++ conditionsOf kept := by
  cases guarded with
  | joined starts =>
      exact Reading.conditionsOf_guard_append clean fun c isHead => .inr (starts c isHead)
  | below =>
      have behind : conditionsOf (' ' :: kept) = conditionsOf kept :=
        Reading.conditionsOf_blanks_append (show ∀ c ∈ [' '], isBlank c by decide)
      rw [← behind]
      refine Reading.conditionsOf_guard_append clean fun c isHead => .inl ?_
      obtain rfl : ' ' = c := Option.some.inj isHead
      decide

theorem infix_of_mem_conditionsOf (member : condition ∈ conditionsOf kept) : condition <:+: kept :=
  Reading.infix_of_mem_conditions member

theorem occursIn_of_infix {part text : List Char} (stands : part <:+: text) :
    occursIn part text = true :=
  occursIn_iff_infix.mpr stands

theorem infix_guarded (guarded : Guarded guard kept entry) : kept <:+: entry := by
  cases guarded with
  | joined => exact (List.suffix_append guard kept).isInfix
  | below =>
      exact ((List.suffix_cons ' ' kept).trans (List.suffix_append guard (' ' :: kept))).isInfix

/-- The conditions of a selector are those of its anchor and those that are kept. -/
theorem conditionsOf_selector (isTrimmed : trim selector = selector)
    (isOutside : Reading.outside.after (anchorOf selector) = Reading.outside) :
    conditionsOf selector = conditionsOf (anchorOf selector) ++ conditionsOf (keptOf selector) := by
  obtain ⟨blanks, same, areBlank⟩ := exists_append_keptOf isTrimmed
  conv_lhs => rw [same]
  rw [Reading.conditionsOf_append isOutside, Reading.conditionsOf_blanks_append areBlank]

/-- An anchor without `html` has no conditions. -/
theorem conditionsOf_anchorOf (notHtml : dropStartFolded? "html".toList selector = none) :
    Reading.outside.after (anchorOf selector) = Reading.outside ∧
      conditionsOf (anchorOf selector) = [] := by
  unfold anchorOf
  cases isAnchored : anchored? selector with
  | none => exact ⟨rfl, rfl⟩
  | some found =>
      obtain ⟨rest, dropped, rfl⟩ := Option.map_eq_some_iff.mp isAnchored
      have isBody : dropBody? selector = some rest := by
        rw [dropAnchor?, dropHtml?, notHtml] at dropped
        exact dropped
      obtain ⟨word, rfl, areNames⟩ := Value.exists_word_of_dropStartFolded? (by decide)
        (Option.filter_eq_some_iff.mp isBody).1
      simp only [Option.map_some, Option.getD_some, List.length_append, Nat.add_sub_cancel,
        List.take_left]
      exact Reading.after_outside fun c member => Reading.class_of_isNameChar (areNames c member)

/-- An alternative is what is kept of the selector, by itself or under one of the guards. -/
theorem keptOf_or_guarded {guards : List (List Char)} (isTrimmed : trim selector = selector)
    (nonempty : selector ≠ [])
    (isEntry : entry ∈ guards.flatMap (guardSelector selector) ∨
      entry ∈ updateSelector guards selector) :
    (entry = keptOf selector) ∨ ∃ guard ∈ guards, Guarded guard (keptOf selector) entry := by
  have ofGuard : ∀ guard ∈ guards, entry ∈ guardSelector selector guard →
      ∃ guard ∈ guards, Guarded guard (keptOf selector) entry := fun guard isGuard isEntry =>
    ⟨guard, isGuard, guarded_of_mem_guardSelector isTrimmed nonempty isEntry⟩
  rcases isEntry with isEntry | isEntry
  · obtain ⟨guard, isGuard, isEntry⟩ := List.mem_flatMap.mp isEntry
    exact .inr (ofGuard guard isGuard isEntry)
  · rcases mem_updateSelector isEntry with ⟨notAnchored, rfl⟩ | ⟨guard, isGuard, isEntry⟩
    · exact .inl (keptOf_of_not_anchored notAnchored).symm
    · exact .inr (ofGuard guard isGuard isEntry)

/-- Guarding and updating lose no condition of a selector but those on the `html` of its
anchor, if the anchor does not end in the middle of a condition.  All others stand in every
alternative, whatever the guards are, and are conditions of it if the guards end clean. -/
theorem guarding_keepsConditions {list : String} (member : selector ∈ selectorsOf list.toList)
    (isOutside : Reading.outside.after (anchorOf selector) = Reading.outside) :
    conditionsOf selector = conditionsOf (anchorOf selector) ++ conditionsOf (keptOf selector) ∧
      (dropStartFolded? "html".toList selector = none → conditionsOf (anchorOf selector) = []) ∧
      ∀ (guards : List String) (alternative : List Char),
        alternative ∈ (guards.map String.toList).flatMap (guardSelector selector) ∨
            alternative ∈ updateSelector (guards.map String.toList) selector →
          (∀ condition ∈ conditionsOf (keptOf selector), occursIn condition alternative) ∧
            ((∀ guard ∈ guards, EndsClean guard.toList) →
              conditionsOf (keptOf selector) <:+ conditionsOf alternative) := by
  obtain ⟨-, isTrimmed, nonempty⟩ := mem_selectorsOf member
  refine ⟨conditionsOf_selector isTrimmed isOutside,
    fun notHtml => (conditionsOf_anchorOf notHtml).2, fun guards alternative isAlternative => ?_⟩
  rcases keptOf_or_guarded isTrimmed nonempty isAlternative with rfl | ⟨guard, isGuard, guarded⟩
  · exact ⟨fun condition isCondition => occursIn_of_infix (infix_of_mem_conditionsOf isCondition),
      fun _ => List.suffix_refl _⟩
  · refine ⟨fun condition isCondition => occursIn_of_infix
      ((infix_of_mem_conditionsOf isCondition).trans (infix_guarded guarded)), fun areClean => ?_⟩
    obtain ⟨text, isText, rfl⟩ := List.mem_map.mp isGuard
    rw [conditionsOf_guarded (areClean text isText) guarded]
    exact List.suffix_append _ _

/-- A class on `html` goes with the anchor; the class, the negation and the pseudo-element
after it are kept under both guards. -/
theorem guarding_keepsConditions_html :
    let selector := "html.dark > body .x:not(.a, body .b)::before".toList
    let guards := ["body:not([data-breakpoint-preview-mode])", "body[data-breakpoint-preview-mode]"]
    (selector ∈ selectorsOf "h1, html.dark > body .x:not(.a, body .b)::before".toList ∧
      Reading.outside.after (anchorOf selector) = Reading.outside ∧
      ∀ guard ∈ guards, EndsClean guard.toList) ∧
    conditionsOf (anchorOf selector) = [".dark".toList] ∧
    conditionsOf (keptOf selector) =
      [".x".toList, ":not(.a, body .b)".toList, "::before".toList] ∧
    ∀ alternative ∈ (guards.map String.toList).flatMap (guardSelector selector),
      conditionsOf (keptOf selector) <:+ conditionsOf alternative := by
  have member : "html.dark > body .x:not(.a, body .b)::before".toList ∈
      selectorsOf "h1, html.dark > body .x:not(.a, body .b)::before".toList := by decide +kernel
  have isOutside : Reading.outside.after
      (anchorOf "html.dark > body .x:not(.a, body .b)::before".toList) = Reading.outside := by
    decide +kernel
  have areClean : ∀ guard ∈ ["body:not([data-breakpoint-preview-mode])",
      "body[data-breakpoint-preview-mode]"], EndsClean guard.toList := by decide +kernel
  have keeps := guarding_keepsConditions member isOutside
  exact ⟨⟨member, isOutside, areClean⟩, by decide +kernel, by decide +kernel,
    fun alternative isAlternative => (keeps.2.2 _ alternative (.inl isAlternative)).2 areClean⟩

/-- A class on `html` is no condition of the alternatives any more. -/
theorem not_guarding_keepsConditions :
    ¬ ∀ (list : String) (guards : List String), ∀ selector ∈ selectorsOf list.toList,
      ∀ alternative ∈ (guards.map String.toList).flatMap (guardSelector selector),
        ∀ condition ∈ conditionsOf selector, occursIn condition alternative := by
  intro keeps
  exact absurd (keeps "html.dark body .x" ["body[data-breakpoint-preview-mode]"]
    "html.dark body .x".toList (by decide +kernel)
    "body[data-breakpoint-preview-mode] .x".toList (by decide +kernel)
    ".dark".toList (by decide +kernel)) (by decide +kernel)

end ContainerPreview.Selector
