import ContainerPreview.Proofs.Text.Trim
import ContainerPreview.Text.Split

/-!
# Parts at the top level

The parts that a scan splits a text into have no separator at their top level
themselves, and each but the last is balanced: the scan is back at its start
after it.  Trimming keeps both properties, so trimmed parts joined by a comma and
a space are split into the same parts again.
-/

namespace ContainerPreview.Text

namespace Scan

/-- The scan after a text. -/
def after (scan : Scan) (text : List Char) : Scan :=
  text.foldl step scan

/-- The scan goes over a text without splitting it. -/
def passes (separator : Char) : Scan → List Char → Bool
  | _, [] => true
  | scan, c :: text => !scan.splitsAt separator c && passes separator (scan.step c) text

/-- A character that counts for a scan: one that opens or closes a group or a
quote, a comma, or a backslash. -/
def counts (c : Char) : Bool :=
  c == '(' || c == ')' || c == '[' || c == ']' || c == '\'' || c == '"' || c == ',' || c == '\\'

/-- A scan as it can come about: groups and quotes wait for characters that
count, and a backslash counts only in quotes. -/
structure Sound (scan : Scan) : Prop where
  closers : ∀ c ∈ scan.closers, c = ')' ∨ c = ']'
  quote : ∀ c ∈ scan.quote, c = '\'' ∨ c = '"'
  escaped : scan.quote = none → scan.escaped = false

@[simp]
theorem after_nil (scan : Scan) : scan.after [] = scan :=
  rfl

@[simp]
theorem after_cons (scan : Scan) (c : Char) (text : List Char) :
    scan.after (c :: text) = (scan.step c).after text :=
  rfl

theorem after_append (scan : Scan) (left right : List Char) :
    scan.after (left ++ right) = (scan.after left).after right :=
  List.foldl_append

theorem passes_append (separator : Char) (scan : Scan) (left right : List Char) :
    scan.passes separator (left ++ right) =
      (scan.passes separator left && (scan.after left).passes separator right) := by
  induction left generalizing scan with
  | nil => rfl
  | cons c left inductionHypothesis => simp [passes, inductionHypothesis, Bool.and_assoc]

/-! ## Scans that come about -/

theorem sound_start : Sound start where
  closers := by simp [start]
  quote := by simp [start]
  escaped := fun _ => rfl

theorem closer_of_closerOf? {c closer : Char} (found : closerOf? c = some closer) :
    closer = ')' ∨ closer = ']' := by
  unfold closerOf? at found
  split at found
  · cases found
    exact .inl rfl
  · split at found
    · cases found
      exact .inr rfl
    · cases found

/-- What is true of none of the characters that count is true only of others. -/
theorem counts_eq_false {p : Char → Bool} (none : ∀ c ∈ "()[]'\",\\".toList, p c = false)
    {c : Char} (holds : p c) : counts c = false := by
  by_contra isCounted
  rw [Bool.not_eq_false] at isCounted
  have isListed : c ∈ "()[]'\",\\".toList := by
    simpa [counts, or_assoc] using isCounted
  rw [none c isListed] at holds
  cases holds

theorem counts_of_isBlank {c : Char} (blank : isBlank c) : counts c = false :=
  counts_eq_false (by decide) blank

theorem Sound.step {scan : Scan} (sound : Sound scan) (c : Char) : Sound (scan.step c) := by
  unfold Scan.step
  split
  · rename_i quote inQuote
    split
    · exact { sound with escaped := fun _ => rfl }
    · split
      · exact { sound with escaped := fun plain => by simp [inQuote] at plain }
      · split
        · rename_i notEscaped _ _
          exact ⟨sound.closers, by simp, fun _ => by simpa using notEscaped⟩
        · exact sound
  · rename_i plain
    split
    · rename_i isQuote
      refine ⟨sound.closers, ?_, by simp⟩
      intro opened isOpened
      obtain rfl : c = opened := by simpa using isOpened
      simpa only [Bool.or_eq_true, beq_iff_eq] using isQuote
    · split
      · rename_i closer found
        refine { sound with closers := ?_ }
        exact List.forall_mem_cons.mpr ⟨closer_of_closerOf? found, sound.closers⟩
      · split
        · refine { sound with closers := ?_ }
          exact fun closer member => sound.closers closer (List.mem_of_mem_tail member)
        · exact sound

theorem Sound.after {scan : Scan} (sound : Sound scan) (text : List Char) :
    Sound (scan.after text) := by
  induction text generalizing scan with
  | nil => exact sound
  | cons c text inductionHypothesis => exact inductionHypothesis (sound.step c)

/-- A scan that splits is at its start. -/
theorem eq_start_of_splitsAt {scan : Scan} (sound : Sound scan) {separator c : Char}
    (splits : scan.splitsAt separator c = true) : scan = start := by
  rcases scan with ⟨closers, quote, escaped⟩
  simp only [splitsAt, isPlain, Bool.and_eq_true, Option.isNone_iff_eq_none,
    List.isEmpty_iff] at splits
  rcases splits with ⟨⟨⟨⟨⟨rfl, -⟩, -⟩, -⟩, rfl⟩, -⟩
  obtain rfl : escaped = false := sound.escaped rfl
  rfl

/-! ## Characters that do not count -/

theorem ne_of_not_counts {c : Char} (idle : counts c = false) :
    c ≠ '(' ∧ c ≠ ')' ∧ c ≠ '[' ∧ c ≠ ']' ∧ c ≠ '\'' ∧ c ≠ '"' ∧ c ≠ ',' ∧ c ≠ '\\' := by
  simpa [counts, and_assoc] using idle

/-- A character that does not count only uses up a backslash. -/
theorem step_of_not_counts {scan : Scan} (sound : Sound scan) {c : Char}
    (idle : counts c = false) : scan.step c = { scan with escaped := false } := by
  obtain ⟨notOpening, notClosing, notBracket, notCloser, notSingle, notDouble, -, notBackslash⟩ :=
    ne_of_not_counts idle
  cases quoted : scan.quote with
  | none =>
      have notEscaped := sound.escaped quoted
      have noCloser : scan.closers.head? ≠ some c := by
        intro isCloser
        rcases sound.closers c (List.mem_of_head? isCloser) with rfl | rfl
        · exact notClosing rfl
        · exact notCloser rfl
      have same : scan.step c = scan := by
        simp [step, quoted, notSingle, notDouble, closerOf?, notOpening, notBracket, noCloser]
      rw [same]
      cases scan
      simp_all
  | some quote =>
      have notQuote : c ≠ quote := by
        rintro rfl
        rcases sound.quote c quoted with rfl | rfl
        · exact notSingle rfl
        · exact notDouble rfl
      cases scan
      simp_all [step]

/-- Outside quotes a character that does not count changes nothing. -/
theorem step_of_isBlank {scan : Scan} (sound : Sound scan) (notEscaped : scan.escaped = false)
    {c : Char} (blank : isBlank c) : scan.step c = scan := by
  rw [step_of_not_counts sound (counts_of_isBlank blank)]
  cases scan
  simp_all

/-- Blanks leave the scan at its start. -/
theorem after_blanks {blanks : List Char} (areBlank : ∀ c ∈ blanks, isBlank c) :
    start.after blanks = start := by
  induction blanks with
  | nil => rfl
  | cons c blanks inductionHypothesis =>
      rw [List.forall_mem_cons] at areBlank
      rw [after_cons, step_of_isBlank sound_start rfl areBlank.1, inductionHypothesis areBlank.2]

/-- A scan that is at its start after blanks was there before them. -/
theorem eq_start_of_after_blanks {scan : Scan} (sound : Sound scan) {blanks : List Char}
    (areBlank : ∀ c ∈ blanks, isBlank c) (atStart : scan.after blanks = start) :
    scan = start := by
  induction blanks generalizing scan with
  | nil => exact atStart
  | cons c blanks inductionHypothesis =>
      rw [List.forall_mem_cons] at areBlank
      have stepped := inductionHypothesis (sound.step c) areBlank.2 atStart
      rw [step_of_not_counts sound (counts_of_isBlank areBlank.1)] at stepped
      have plain : scan.quote = none := congrArg quote stepped
      have notEscaped := sound.escaped plain
      rw [← stepped]
      cases scan
      simp_all

/-! ## Texts that are scanned alike -/

/-- A scan is at the same place after two texts, and splits both or neither at a
comma. -/
def Alike (scan : Scan) (text out : List Char) : Prop :=
  scan.after out = scan.after text ∧ scan.passes ',' out = scan.passes ',' text

theorem Alike.refl (scan : Scan) (text : List Char) : scan.Alike text text :=
  ⟨rfl, rfl⟩

theorem Alike.append {scan : Scan} {left left' right right' : List Char}
    (alike : scan.Alike left left') (alikeRight : (scan.after left).Alike right right') :
    scan.Alike (left ++ right) (left' ++ right') := by
  constructor
  · rw [after_append, after_append, alike.1, alikeRight.1]
  · rw [passes_append, passes_append, alike.1, alike.2, alikeRight.2]

theorem splitsAt_of_not_counts (scan : Scan) {c : Char} (idle : counts c = false) :
    scan.splitsAt ',' c = false := by
  simp [splitsAt, ne_of_not_counts idle]

/-- A text of characters that do not count only uses up a backslash. -/
theorem after_of_not_counts {scan : Scan} (sound : Sound scan) {text : List Char}
    (nonempty : text ≠ []) (idle : ∀ c ∈ text, counts c = false) :
    scan.after text = { scan with escaped := false } ∧ scan.passes ',' text := by
  induction text generalizing scan with
  | nil => exact absurd rfl nonempty
  | cons c text inductionHypothesis =>
      obtain ⟨here, later⟩ := List.forall_mem_cons.mp idle
      have stepped := step_of_not_counts sound here
      rw [after_cons, passes, splitsAt_of_not_counts scan here]
      cases text with
      | nil => exact ⟨stepped, rfl⟩
      | cons d text =>
          obtain ⟨isAfter, passesRest⟩ :=
            inductionHypothesis (sound.step c) (List.cons_ne_nil d text) later
          rw [isAfter, passesRest, stepped]
          exact ⟨rfl, rfl⟩

theorem alike_of_not_counts {scan : Scan} (sound : Sound scan) {text out : List Char}
    (nonempty : text ≠ []) (idle : ∀ c ∈ text, counts c = false) (nonempty' : out ≠ [])
    (idle' : ∀ c ∈ out, counts c = false) : scan.Alike text out := by
  obtain ⟨isAfter, passes⟩ := after_of_not_counts sound nonempty idle
  obtain ⟨isAfter', passes'⟩ := after_of_not_counts sound nonempty' idle'
  exact ⟨isAfter'.trans isAfter.symm, passes'.trans passes.symm⟩

theorem alike_blanks {scan : Scan} (sound : Sound scan) (notEscaped : scan.escaped = false)
    {blanks : List Char} (areBlank : ∀ c ∈ blanks, isBlank c) :
    scan.after blanks = scan ∧ scan.Alike blanks [] := by
  have same : scan.after blanks = scan ∧ scan.passes ',' blanks := by
    cases blanks with
    | nil => exact ⟨rfl, rfl⟩
    | cons c blanks =>
        obtain ⟨isAfter, passes⟩ := after_of_not_counts sound (List.cons_ne_nil c blanks)
          fun d member => counts_of_isBlank (areBlank d member)
        refine ⟨?_, passes⟩
        rw [isAfter]
        cases scan
        simp_all
  exact ⟨same.1, same.1.symm, same.2.symm⟩

/-- A comma or a closing parenthesis comes to the same whether a backslash has taken a blank
in front of it or takes it. -/
theorem alike_blanks_closer {scan : Scan} (sound : Sound scan) {blanks : List Char}
    (areBlank : ∀ c ∈ blanks, isBlank c) {closer : Char} (closes : closer = ',' ∨ closer = ')') :
    scan.Alike (blanks ++ [closer]) [closer] := by
  cases blanks with
  | nil => exact .refl scan [closer]
  | cons c blanks =>
      obtain ⟨isAfter, passesBlanks⟩ := after_of_not_counts sound (List.cons_ne_nil c blanks)
        fun d member => counts_of_isBlank (areBlank d member)
      have notTaken : ∀ quote ∈ scan.quote, closer ≠ quote := by
        rintro quote isQuote rfl
        rcases closes with rfl | rfl
        · rcases sound.quote _ isQuote with same | same <;> cases same
        · rcases sound.quote _ isQuote with same | same <;> cases same
      have notBackslash : closer ≠ '\\' := by
        rcases closes with rfl | rfl <;> decide
      constructor
      · rw [after_append, isAfter, after_cons, after_cons, after_nil, after_nil]
        cases quoted : scan.quote with
        | none =>
            have notEscaped := sound.escaped quoted
            cases scan
            simp_all
        | some quote =>
            have different := notTaken quote quoted
            cases scan
            simp_all [step]
      · rw [passes_append, isAfter, passesBlanks]
        simp [passes, splitsAt, isPlain]

theorem escaped_step {scan : Scan} (sound : Sound scan) {c : Char} (notBackslash : c ≠ '\\') :
    (scan.step c).escaped = false := by
  cases quoted : scan.quote with
  | none =>
      have notEscaped := sound.escaped quoted
      unfold step
      rw [quoted]
      dsimp only
      split
      · exact notEscaped
      · split
        · exact notEscaped
        · split
          · exact notEscaped
          · exact notEscaped
  | some quote =>
      cases escaped : scan.escaped with
      | true => simp [step, quoted, escaped]
      | false =>
          simp only [step, quoted, escaped, beq_iff_eq, notBackslash, Bool.false_eq_true, if_false]
          split
          · rfl
          · exact escaped

end Scan

/-! ## Parts of a text -/

/-- A text has no separator at its top level. -/
def isWhole (separator : Char) (text : List Char) : Bool :=
  Scan.start.passes separator text

/-- A text closes all groups and quotes that it opens. -/
def Balanced (text : List Char) : Prop :=
  Scan.start.after text = Scan.start

theorem Balanced.append {left right : List Char} (isLeft : Balanced left)
    (isRight : Balanced right) : Balanced (left ++ right) := by
  rw [Balanced, Scan.after_append, isLeft, isRight]

/-- After a balanced text the scan goes on as if from its start. -/
theorem isWhole_append {separator : Char} {left right : List Char} (isLeft : Balanced left) :
    isWhole separator (left ++ right) = (isWhole separator left && isWhole separator right) := by
  rw [isWhole, Scan.passes_append, isLeft]
  rfl

/-- The parts that a scan splits a text into: none is split again, and the scan
is back at its start after each but the last. -/
theorem parts_of_splitFrom (separator : Char) {scan : Scan} (sound : Scan.Sound scan)
    (text : List Char) :
    ∃ part parts, splitFrom separator scan text = part :: parts ∧
      scan.passes separator part ∧ (parts ≠ [] → scan.after part = Scan.start) ∧
        (∀ later ∈ parts, isWhole separator later) ∧
          parts.Pairwise fun part _ => Balanced part := by
  induction text generalizing scan with
  | nil => exact ⟨[], [], rfl, rfl, by simp, by simp, List.Pairwise.nil⟩
  | cons c text inductionHypothesis =>
      rw [splitFrom]
      split
      · rename_i splits
        obtain rfl := Scan.eq_start_of_splitsAt sound splits
        rcases inductionHypothesis Scan.sound_start with
          ⟨part, parts, same, whole, balanced, laterWhole, laterBalanced⟩
        refine ⟨[], part :: parts, by rw [same], rfl, fun _ => rfl, ?_, ?_⟩
        · exact List.forall_mem_cons.mpr ⟨whole, laterWhole⟩
        · refine List.Pairwise.cons ?_ laterBalanced
          intro later member
          exact balanced (List.ne_nil_of_mem member)
      · rename_i noSplit
        rcases inductionHypothesis (sound.step c) with
          ⟨part, parts, same, whole, balanced, laterWhole, laterBalanced⟩
        refine ⟨c :: part, parts, by rw [same, consFirst], ?_, balanced, laterWhole,
          laterBalanced⟩
        simp [Scan.passes, noSplit, whole]

theorem isWhole_of_mem_splitTopLevel {separator : Char} {text part : List Char}
    (member : part ∈ splitTopLevel separator text) : isWhole separator part := by
  rcases parts_of_splitFrom separator Scan.sound_start text with
    ⟨first, parts, same, whole, -, laterWhole, -⟩
  rw [splitTopLevel, same] at member
  rcases List.mem_cons.mp member with rfl | later
  · exact whole
  · exact laterWhole part later

/-- Only the last part can leave something open. -/
theorem pairwise_balanced_splitTopLevel (separator : Char) (text : List Char) :
    (splitTopLevel separator text).Pairwise fun part _ => Balanced part := by
  rcases parts_of_splitFrom separator Scan.sound_start text with
    ⟨first, parts, same, -, balanced, -, laterBalanced⟩
  rw [splitTopLevel, same]
  apply List.Pairwise.cons
  · intro later member
    exact balanced (List.ne_nil_of_mem member)
  · exact laterBalanced

/-! ## Trimmed parts -/

theorem isWhole_trim {separator : Char} {text : List Char} (whole : isWhole separator text) :
    isWhole separator (trim text) := by
  rcases exists_append_trim text with ⟨left, right, same, leftBlank, -⟩
  rw [isWhole, same, Scan.passes_append, Scan.passes_append, Scan.after_blanks leftBlank,
    Bool.and_eq_true, Bool.and_eq_true] at whole
  exact whole.1.2

theorem balanced_trim {text : List Char} (balanced : Balanced text) : Balanced (trim text) := by
  rcases exists_append_trim text with ⟨left, right, same, leftBlank, rightBlank⟩
  rw [Balanced, same, Scan.after_append, Scan.after_append, Scan.after_blanks leftBlank] at balanced
  exact Scan.eq_start_of_after_blanks (Scan.sound_start.after (trim text)) rightBlank balanced

/-! ## Joined parts -/

theorem splitFrom_of_passes {separator : Char} {scan : Scan} {text : List Char}
    (passes : scan.passes separator text) : splitFrom separator scan text = [text] := by
  induction text generalizing scan with
  | nil => rfl
  | cons c text inductionHypothesis =>
      simp only [Scan.passes, Bool.and_eq_true, Bool.not_eq_true'] at passes
      rw [splitFrom, passes.1, inductionHypothesis passes.2]
      rfl

/-- A text is split right after a part that the scan goes over, if the separator
splits there. -/
theorem splitFrom_append {separator : Char} {scan : Scan} {text : List Char}
    (passes : scan.passes separator text)
    (splits : (scan.after text).splitsAt separator separator = true) (rest : List Char) :
    splitFrom separator scan (text ++ separator :: rest) =
      text :: splitFrom separator (scan.after text) rest := by
  induction text generalizing scan with
  | nil =>
      rw [Scan.after_nil] at splits ⊢
      rw [List.nil_append, splitFrom, if_pos splits]
  | cons c text inductionHypothesis =>
      simp only [Scan.passes, Bool.and_eq_true, Bool.not_eq_true'] at passes
      rw [List.cons_append, splitFrom, passes.1, inductionHypothesis passes.2 splits]
      rfl

/-- Parts joined by a comma and a space are split again, with the space in front
of all but the first. -/
theorem splitTopLevel_intercalate {part : List Char} {parts : List (List Char)}
    (whole : ∀ each ∈ part :: parts, isWhole ',' each)
    (balanced : (part :: parts).Pairwise fun part _ => Balanced part) :
    splitTopLevel ',' ([',', ' '].intercalate (part :: parts)) =
      part :: parts.map fun later => ' ' :: later := by
  induction parts generalizing part with
  | nil =>
      rw [List.intercalate_singleton, splitTopLevel]
      exact splitFrom_of_passes (whole part List.mem_cons_self)
  | cons later parts inductionHypothesis =>
      rw [List.forall_mem_cons] at whole
      rcases List.pairwise_cons.mp balanced with ⟨partBalanced, laterBalanced⟩
      have closed : Scan.start.after part = Scan.start :=
        partBalanced later List.mem_cons_self
      have splits : (Scan.start.after part).splitsAt ',' ',' = true := by
        rw [closed]
        decide
      have ofLater := inductionHypothesis whole.2 laterBalanced
      rw [splitTopLevel] at ofLater
      rw [List.intercalate_cons_cons, List.append_assoc, List.cons_append, List.cons_append,
        List.nil_append, splitTopLevel, splitFrom_append whole.1 splits, closed, splitFrom,
        if_neg (by decide), Scan.step_of_isBlank Scan.sound_start rfl (by decide), ofLater]
      rfl

end ContainerPreview.Text
