import ContainerPreview.Proofs.Css.Excerpt
import ContainerPreview.Sheet.Reader

/-!
# The mark of importance

The search for the mark of importance goes from phase to phase, and comments and blanks do not
matter to it.  The tokens that are found before the mark can be written with blanks and comments
among them, and the same mark after them: the search then ends in the same way.
-/

namespace ContainerPreview

open Css Text

/-! ## The search for the mark of importance -/

/-- A token that the mark of importance ends with. -/
def Css.Token.isWord : Token → Bool
  | .single _ (.ident name) => lowerAscii name == "important".toList
  | _ => false

/-- How far the search for the mark has come. -/
inductive Phase where
  | value
  | mark
  | important
deriving DecidableEq

namespace Phase

/-- The search goes on with a token. -/
def next (phase : Phase) (token : Token) : Phase :=
  match phase with
  | .value => if token.isLiteral "!" then .mark else .value
  | .mark => if token.isWord then .important else if token.isInsignificant then .mark else .value
  | .important => if token.isInsignificant then .important else .value

/-- The token is neither blank nor a comment nor, as far as the search goes, a part of the mark. -/
def counts (phase : Phase) (token : Token) : Bool :=
  !token.isInsignificant &&
    match phase with
    | .value => !token.isLiteral "!"
    | .mark => !token.isWord
    | .important => true

/-- The search goes on with tokens. -/
def after (phase : Phase) (tokens : List Token) : Phase :=
  tokens.foldl next phase

/-- A block follows a token that counts. -/
def meetsBlock (phase : Phase) (seen : Bool) : List Token → Bool
  | [] => false
  | token :: rest =>
      (phase.counts token && seen && token.isCurly) ||
        (phase.next token).meetsBlock (seen || phase.counts token) rest

end Phase

namespace Importance

/-- How far a search has come. -/
def phase : Importance → Phase
  | .value => .value
  | .mark _ => .mark
  | .important _ => .important

/-- The search goes on with a token. -/
def advance (state : Importance) (before : List Token) (token : Token) : Importance :=
  match state with
  | .value => if token.isLiteral "!" then .mark before else .value
  | .mark start =>
      if token.isWord then .important start else if token.isInsignificant then .mark start else .value
  | .important start => if token.isInsignificant then .important start else .value

theorem phase_advance (state : Importance) (before : List Token) (token : Token) :
    (state.advance before token).phase = state.phase.next token := by
  cases state <;> simp only [advance, phase, Phase.next] <;> split_ifs <;> rfl

end Importance

theorem notInsignificant_of_isLiteral {token : Token} {text : String}
    (isLiteral : token.isLiteral text) : token.isInsignificant = false := by
  cases token with
  | group => rfl
  | single position content => cases content <;> first | rfl | cases isLiteral

theorem notInsignificant_of_isWord {token : Token} (isWord : token.isWord) :
    token.isInsignificant = false := by
  cases token with
  | group => rfl
  | single position content => cases content <;> first | rfl | cases isWord

theorem readValue_mark (before start : List Token) (seen : Bool) (token : Token) (rest : List Token) :
    readValue before (.mark start) seen (token :: rest) =
      if token.isWord then readValue (token :: before) (.important start) seen rest
      else if token.isInsignificant then readValue (token :: before) (.mark start) seen rest
      else
        let reading := readValue (token :: before) .value true rest
        { reading with blockFollows := reading.blockFollows || (seen && token.isCurly) } := by
  cases token with
  | group => simp only [readValue, Token.isWord]; rfl
  | single position content =>
      cases content <;> simp only [readValue, Token.isWord] <;> rfl

/-- A value is read token by token. -/
theorem readValue_cons (before : List Token) (state : Importance) (seen : Bool) (token : Token)
    (rest : List Token) :
    readValue before state seen (token :: rest) =
      (let reading := readValue (token :: before) (state.advance before token)
        (seen || state.phase.counts token) rest
      { reading with
        blockFollows :=
          reading.blockFollows || (state.phase.counts token && seen && token.isCurly) }) := by
  cases state with
  | value =>
      simp only [readValue, Importance.advance, Importance.phase, Phase.counts]
      by_cases isMark : token.isLiteral "!"
      · simp [isMark]
      · cases insignificant : token.isInsignificant <;> simp [isMark]
  | mark start =>
      rw [readValue_mark]
      simp only [Importance.advance, Importance.phase, Phase.counts]
      cases isWord : token.isWord with
      | true => simp
      | false => cases insignificant : token.isInsignificant <;> simp
  | important start =>
      simp only [readValue, Importance.advance, Importance.phase, Phase.counts]
      cases insignificant : token.isInsignificant <;> simp

namespace Phase

theorem after_cons (phase : Phase) (token : Token) (tokens : List Token) :
    phase.after (token :: tokens) = (phase.next token).after tokens :=
  rfl

theorem after_append (phase : Phase) (left right : List Token) :
    phase.after (left ++ right) = (phase.after left).after right :=
  List.foldl_append

/-- Blanks and comments do not matter to the search. -/
theorem next_of_isInsignificant (phase : Phase) {token : Token}
    (insignificant : token.isInsignificant) : phase.next token = phase := by
  have notLiteral : token.isLiteral "!" = false := Bool.eq_false_iff.mpr fun isLiteral => by
    rw [notInsignificant_of_isLiteral isLiteral] at insignificant
    cases insignificant
  have notWord : token.isWord = false := Bool.eq_false_iff.mpr fun isWord => by
    rw [notInsignificant_of_isWord isWord] at insignificant
    cases insignificant
  cases phase <;> simp [next, insignificant, notLiteral, notWord]

theorem after_of_insignificant (phase : Phase) {tokens : List Token}
    (insignificant : ∀ token ∈ tokens, token.isInsignificant) : phase.after tokens = phase := by
  induction tokens with
  | nil => rfl
  | cons token tokens inductionHypothesis =>
      rw [List.forall_mem_cons] at insignificant
      rw [after_cons, phase.next_of_isInsignificant insignificant.1,
        inductionHypothesis insignificant.2]

theorem meetsBlock_append (phase : Phase) (seen : Bool) {left : List Token} (right : List Token)
    (meets : phase.meetsBlock seen left) : phase.meetsBlock seen (left ++ right) := by
  induction left generalizing phase seen with
  | nil => cases meets
  | cons token left inductionHypothesis =>
      rw [meetsBlock, Bool.or_eq_true] at meets
      rw [List.cons_append, meetsBlock, Bool.or_eq_true]
      exact meets.imp_right (inductionHypothesis _ _)

theorem meetsBlock_insignificant_append (phase : Phase) (seen : Bool) {left : List Token}
    (insignificant : ∀ token ∈ left, token.isInsignificant) (right : List Token) :
    phase.meetsBlock seen (left ++ right) = phase.meetsBlock seen right := by
  induction left with
  | nil => rfl
  | cons token left inductionHypothesis =>
      rw [List.forall_mem_cons] at insignificant
      have notCounted : phase.counts token = false := by simp [counts, insignificant.1]
      rw [List.cons_append, meetsBlock, phase.next_of_isInsignificant insignificant.1, notCounted,
        Bool.or_false, inductionHypothesis insignificant.2]
      rfl

/-- No block is met in tokens that are blanks, comments and marks after others. -/
theorem meetsBlock_append_of_notCurly (phase : Phase) (seen : Bool) (left : List Token)
    {right : List Token} (noCurly : ∀ token ∈ right, token.isCurly = false) :
    phase.meetsBlock seen (left ++ right) = phase.meetsBlock seen left := by
  induction left generalizing phase seen with
  | nil =>
      rw [List.nil_append, meetsBlock]
      induction right generalizing phase seen with
      | nil => rfl
      | cons token right inductionHypothesis =>
          rw [List.forall_mem_cons] at noCurly
          rw [meetsBlock, noCurly.1, Bool.and_false, Bool.false_or,
            inductionHypothesis noCurly.2]
  | cons token left inductionHypothesis =>
      rw [List.cons_append, meetsBlock, meetsBlock, inductionHypothesis]

end Phase

theorem readValue_phase (before : List Token) (state : Importance) (seen : Bool)
    (tokens : List Token) :
    ((readValue before state seen tokens).important ↔ state.phase.after tokens = .important) ∧
      (readValue before state seen tokens).blockFollows = state.phase.meetsBlock seen tokens := by
  induction tokens generalizing before state seen with
  | nil => cases state <;> simp [readValue, Importance.phase, Phase.after, Phase.meetsBlock]
  | cons token tokens inductionHypothesis =>
      obtain ⟨important, blockFollows⟩ := inductionHypothesis (token :: before)
        (state.advance before token) (seen || state.phase.counts token)
      rw [Importance.phase_advance] at important blockFollows
      rw [readValue_cons, Phase.after_cons, Phase.meetsBlock]
      refine ⟨important, ?_⟩
      simp only [blockFollows]
      rw [Bool.or_comm]

/-- A value without the mark of importance is made of all tokens. -/
theorem tokens_readValue_of_not_important (before : List Token) (state : Importance) (seen : Bool)
    {tokens : List Token} (notImportant : state.phase.after tokens ≠ .important) :
    (readValue before state seen tokens).tokens = before.reverse ++ tokens := by
  induction tokens generalizing before state seen with
  | nil =>
      rw [List.append_nil]
      cases state with
      | important => exact absurd rfl notImportant
      | _ => rfl
  | cons token tokens inductionHypothesis =>
      rw [Phase.after_cons, ← state.phase_advance before token] at notImportant
      rw [readValue_cons]
      simp only [inductionHypothesis _ _ _ notImportant]
      simp

/-- The tokens of a value end where the mark of importance begins. -/
theorem tokens_readValue_append_mark (before : List Token) (state : Importance) (seen : Bool)
    {tokens : List Token} (isValue : state.phase.after tokens = .value) {mark word : Token}
    (isMark : mark.isLiteral "!") (isWord : word.isWord) :
    (readValue before state seen (tokens ++ [mark, word])).tokens = before.reverse ++ tokens := by
  induction tokens generalizing before state seen with
  | nil =>
      cases state with
      | value =>
          rw [List.nil_append, readValue_cons, readValue_cons]
          simp [Importance.advance, isMark, isWord, readValue]
      | _ => cases isValue
  | cons token tokens inductionHypothesis =>
      rw [Phase.after_cons, ← state.phase_advance before token] at isValue
      rw [List.cons_append, readValue_cons]
      simp only [inductionHypothesis _ _ _ isValue]
      simp

/-- Where the mark that is looked for begins, no other one has been begun. -/
def Importance.IsSound (before : List Token) : Importance → Prop
  | .value => True
  | .mark start | .important start => start <:+ before ∧ Phase.value.after start.reverse = .value

theorem Importance.IsSound.advance {before : List Token} {state : Importance}
    (sound : state.IsSound before) (isPhase : Phase.value.after before.reverse = state.phase)
    (token : Token) : (state.advance before token).IsSound (token :: before) := by
  cases state with
  | value =>
      simp only [Importance.advance]
      split
      · exact ⟨List.suffix_cons token before, isPhase⟩
      · trivial
  | mark start =>
      have later : (Importance.mark start).IsSound (token :: before) :=
        ⟨sound.1.trans (List.suffix_cons token before), sound.2⟩
      simp only [Importance.advance]
      split
      · exact later
      · split
        · exact later
        · trivial
  | important start =>
      simp only [Importance.advance]
      split
      · exact ⟨sound.1.trans (List.suffix_cons token before), sound.2⟩
      · trivial

/-- The tokens of a value with the mark of importance are those before the mark. -/
theorem tokens_readValue_of_important (before : List Token) (state : Importance) (seen : Bool)
    (tokens : List Token) (sound : state.IsSound before)
    (isPhase : Phase.value.after before.reverse = state.phase)
    (important : (readValue before state seen tokens).important) :
    (readValue before state seen tokens).tokens <+: before.reverse ++ tokens ∧
      Phase.value.after (readValue before state seen tokens).tokens = .value := by
  induction tokens generalizing before state seen with
  | nil =>
      rw [List.append_nil]
      cases state with
      | important start =>
          exact ⟨List.reverse_prefix.mpr sound.1, sound.2⟩
      | _ => cases important
  | cons token tokens inductionHypothesis =>
      rw [readValue_cons] at important ⊢
      have isNext :
          Phase.value.after (token :: before).reverse = (state.advance before token).phase := by
        rw [List.reverse_cons, Phase.after_append, isPhase, Importance.phase_advance]
        rfl
      have later := inductionHypothesis (token :: before) (state.advance before token)
        (seen || state.phase.counts token) (sound.advance isPhase token) isNext important
      rwa [List.reverse_cons, List.append_assoc, List.singleton_append] at later

/-! ## Values that have been written -/

theorem isLiteral_spaced (text : String) (token : Token) :
    token.spaced.isLiteral text = token.isLiteral text := by
  cases token <;> rfl

theorem isCurly_spaced (token : Token) : token.spaced.isCurly = token.isCurly := by
  cases token with
  | single => rfl
  | group position opener content => cases opener <;> rfl

namespace Phase

theorem next_spaced (phase : Phase) (token : Token) : phase.next token.spaced = phase.next token := by
  cases token <;> rfl

theorem counts_spaced (phase : Phase) (token : Token) :
    phase.counts token.spaced = phase.counts token := by
  cases token <;> rfl

theorem isInsignificant_of_mem_commentBetween {token comment : Token} {tokens : List Token}
    (member : comment ∈ commentBetween token tokens) : comment.isInsignificant := by
  cases tokens with
  | nil => cases member
  | cons next tokens =>
      rw [commentBetween] at member
      split at member
      · obtain rfl := List.mem_singleton.mp member
        rfl
      · cases member

theorem after_spacedIn (phase : Phase) (tokens : List Token) :
    phase.after (spacedIn tokens) = phase.after tokens := by
  induction tokens generalizing phase with
  | nil => rfl
  | cons token tokens inductionHypothesis =>
      rw [spacedIn, after_cons, after_cons, next_spaced, after_append,
        after_of_insignificant _ fun _ => isInsignificant_of_mem_commentBetween, inductionHypothesis]

theorem meetsBlock_spacedIn (phase : Phase) (seen : Bool) (tokens : List Token) :
    phase.meetsBlock seen (spacedIn tokens) = phase.meetsBlock seen tokens := by
  induction tokens generalizing phase seen with
  | nil => rfl
  | cons token tokens inductionHypothesis =>
      rw [spacedIn, meetsBlock, meetsBlock, next_spaced, counts_spaced, isCurly_spaced,
        meetsBlock_insignificant_append _ _ fun _ => isInsignificant_of_mem_commentBetween,
        inductionHypothesis]

end Phase

theorem isInsignificant_of_isGap {token : Token} (gap : token.isGap) : token.isInsignificant := by
  cases token with
  | group => cases gap
  | single position content => cases content <;> first | rfl | cases gap

/-- Blank text as tokens. -/
def blanks (text : List Char) : List Token :=
  if text.isEmpty then [] else [.single .start (.blank text)]

theorem isGap_of_mem_blanks {text : List Char} {token : Token} (member : token ∈ blanks text) :
    token.isGap := by
  rw [blanks] at member
  split at member
  · cases member
  · obtain rfl := List.mem_singleton.mp member
    rfl

/-- Tokens as they are written with blanks around them. -/
inductive Padded (tokens : List Token) : List Token → Prop where
  | intro (left right : List Char) (leftGaps : left.all isGap) (rightGaps : right.all isGap) :
      Padded tokens (blanks left ++ spacedIn (coreOf tokens) ++ blanks right)

namespace Padded

variable {tokens padded : List Token}

/-- The search for the mark of importance ends in written tokens as in those themselves. -/
theorem after (isPadded : Padded tokens padded) (phase : Phase) :
    phase.after padded = phase.after tokens := by
  obtain ⟨left, right⟩ := isPadded
  have leftGaps : ∀ token ∈ blanks left, token.isGap := fun _ => isGap_of_mem_blanks
  have rightGaps : ∀ token ∈ blanks right, token.isGap := fun _ => isGap_of_mem_blanks
  obtain ⟨left', right', isTokens, leftGaps', rightGaps'⟩ := exists_core tokens
  have ofGaps : ∀ {gaps : List Token} (phase : Phase), (∀ token ∈ gaps, token.isGap) →
      phase.after gaps = phase := fun phase areGaps =>
    phase.after_of_insignificant fun token member => isInsignificant_of_isGap (areGaps token member)
  conv_rhs => rw [isTokens]
  rw [Phase.after_append, Phase.after_append, Phase.after_append, Phase.after_append,
    ofGaps _ leftGaps, ofGaps _ rightGaps, ofGaps _ leftGaps', ofGaps _ rightGaps',
    Phase.after_spacedIn]

theorem notCurly_of_isGap {token : Token} (gap : token.isGap) : token.isCurly = false := by
  cases token with
  | group => cases gap
  | single => rfl

theorem meetsBlock (isPadded : Padded tokens padded) (phase : Phase) (seen : Bool) :
    phase.meetsBlock seen padded = phase.meetsBlock seen tokens := by
  obtain ⟨left, right⟩ := isPadded
  have leftGaps : ∀ token ∈ blanks left, token.isGap := fun _ => isGap_of_mem_blanks
  have rightGaps : ∀ token ∈ blanks right, token.isGap := fun _ => isGap_of_mem_blanks
  obtain ⟨left', right', isTokens, leftGaps', rightGaps'⟩ := exists_core tokens
  have insignificant : ∀ {gaps : List Token}, (∀ token ∈ gaps, token.isGap) →
      ∀ token ∈ gaps, token.isInsignificant := fun areGaps token member =>
    isInsignificant_of_isGap (areGaps token member)
  have noCurly : ∀ {gaps : List Token}, (∀ token ∈ gaps, token.isGap) →
      ∀ token ∈ gaps, token.isCurly = false := fun areGaps token member =>
    notCurly_of_isGap (areGaps token member)
  conv_rhs => rw [isTokens]
  rw [Phase.meetsBlock_append_of_notCurly _ _ _ (noCurly rightGaps),
    Phase.meetsBlock_insignificant_append _ _ (insignificant leftGaps), Phase.meetsBlock_spacedIn,
    Phase.meetsBlock_append_of_notCurly _ _ _ (noCurly rightGaps'),
    Phase.meetsBlock_insignificant_append _ _ (insignificant leftGaps')]

end Padded

theorem notCurly_of_isLiteral {token : Token} {text : String} (isLiteral : token.isLiteral text) :
    token.isCurly = false := by
  cases token with
  | group => cases isLiteral
  | single => rfl

theorem notCurly_of_isWord {token : Token} (isWord : token.isWord) : token.isCurly = false := by
  cases token with
  | group => cases isWord
  | single => rfl

theorem reading_eq {reading : ValueReading} {tokens : List Token} {important blockFollows : Bool}
    (sameTokens : reading.tokens = tokens) (sameImportant : reading.important = important)
    (sameBlock : reading.blockFollows = blockFollows) :
    reading = { tokens, important, blockFollows } := by
  subst sameTokens sameImportant sameBlock
  rfl

/-- A value that has been read is read again from what is written for it. -/
theorem readValue_padded {value padded : List Token} {mark word : Token}
    (isPadded : Padded (readValue [] .value false value).tokens padded)
    (noBlock : (readValue [] .value false value).blockFollows = false)
    (isMark : mark.isLiteral "!") (isWord : word.isWord) :
    readValue [] .value false
        (padded ++ if (readValue [] .value false value).important then [mark, word] else []) =
      { tokens := padded, important := (readValue [] .value false value).important,
        blockFollows := false } := by
  obtain ⟨isImportant, isBlock⟩ := readValue_phase [] .value false value
  rw [noBlock] at isBlock
  have samePhase := isPadded.after .value
  have sameBlock := isPadded.meetsBlock .value false
  cases important : (readValue [] .value false value).important with
  | false =>
      have notImportant : Phase.value.after value ≠ .important := fun same => by
        rw [isImportant.mpr same] at important
        cases important
      have isValue := tokens_readValue_of_not_important [] .value false notImportant
      rw [isValue, List.reverse_nil, List.nil_append] at samePhase sameBlock
      obtain ⟨isImportant', isBlock'⟩ := readValue_phase [] .value false padded
      rw [← samePhase] at notImportant
      rw [if_neg (by simp), List.append_nil]
      exact reading_eq (tokens_readValue_of_not_important [] .value false notImportant)
        (Bool.eq_false_iff.mpr fun same => notImportant (isImportant'.mp same))
        (isBlock'.trans (sameBlock.trans isBlock.symm))
  | true =>
      obtain ⟨isPrefix, isValue⟩ :=
        tokens_readValue_of_important [] .value false value trivial rfl important
      obtain ⟨after, isAll⟩ := isPrefix
      have noBlockBefore : Phase.value.meetsBlock false (readValue [] .value false value).tokens =
          false := Bool.eq_false_iff.mpr fun meets => by
        have whole := Phase.meetsBlock_append .value false after meets
        rw [isAll, List.reverse_nil, List.nil_append] at whole
        exact Bool.false_ne_true (isBlock.trans whole)
      obtain ⟨isImportant', isBlock'⟩ := readValue_phase [] .value false (padded ++ [mark, word])
      rw [if_pos rfl]
      refine reading_eq (tokens_readValue_append_mark [] .value false (samePhase.trans isValue)
        isMark isWord) (isImportant'.mpr ?_) (isBlock'.trans ?_)
      · rw [Phase.after_append, show Importance.value.phase = .value from rfl, samePhase, isValue]
        simp [Phase.after, Phase.next, isMark, isWord]
      · refine (Phase.meetsBlock_append_of_notCurly _ _ _ ?_).trans (sameBlock.trans noBlockBefore)
        simp [notCurly_of_isLiteral isMark, notCurly_of_isWord isWord]

end ContainerPreview
