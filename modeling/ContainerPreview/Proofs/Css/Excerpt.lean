import ContainerPreview.Proofs.Css.Spaced

/-!
# Parts of a calm text

Tokens that stand one after the other in a calm text are written as text that is cut into them
again.  Blanks at their ends are left out where their text is trimmed, and the text that is left
begins and ends with characters that are not blank.
-/

namespace ContainerPreview.Css

open Text

/-! ## Parts of a calm text -/

/-- Signs that stand one after the other in a text of calm signs. -/
def IsExcerpt (signs : List Sign) : Prop :=
  ∃ text back, text.all isTidy ∧ CutInto text (signs ++ back)

theorem IsExcerpt.left {left right : List Sign} (excerpt : IsExcerpt (left ++ right)) :
    IsExcerpt left := by
  obtain ⟨text, back, areTidy, cutInto⟩ := excerpt
  exact ⟨text, right ++ back, areTidy, by rwa [← List.append_assoc]⟩

theorem IsExcerpt.tail {sign : Sign} {signs : List Sign} (excerpt : IsExcerpt (sign :: signs)) :
    IsExcerpt signs := by
  obtain ⟨text, back, areTidy, cutInto⟩ := excerpt
  obtain ⟨rest, -, later, restTidy⟩ := cutInto.exists_recut areTidy
  exact ⟨rest, back, restTidy, later⟩

theorem IsExcerpt.right {left right : List Sign} (excerpt : IsExcerpt (left ++ right)) :
    IsExcerpt right := by
  induction left with
  | nil => exact excerpt
  | cons sign left inductionHypothesis => exact inductionHypothesis excerpt.tail

/-- Tokens without flaws that stand one after the other in a text of calm signs. -/
structure AreCalm (tokens : List Token) : Prop where
  flawless : flawlessIn tokens
  excerpt : IsExcerpt (signsIn tokens)

namespace AreCalm

variable {front rear tokens : List Token}

theorem left (calm : AreCalm (front ++ rear)) : AreCalm front := by
  obtain ⟨flawless, excerpt⟩ := calm
  rw [flawlessIn_append, Bool.and_eq_true] at flawless
  rw [signsIn_append] at excerpt
  exact ⟨flawless.1, excerpt.left⟩

theorem right (calm : AreCalm (front ++ rear)) : AreCalm rear := by
  obtain ⟨flawless, excerpt⟩ := calm
  rw [flawlessIn_append, Bool.and_eq_true] at flawless
  rw [signsIn_append] at excerpt
  exact ⟨flawless.2, excerpt.right⟩

theorem tail {token : Token} (calm : AreCalm (token :: tokens)) : AreCalm tokens := by
  have whole : AreCalm ([token] ++ tokens) := calm
  exact whole.right

theorem content {position : Position} {opener : Opener}
    (calm : AreCalm [.group position opener tokens]) : AreCalm tokens := by
  obtain ⟨flawless, excerpt⟩ := calm
  rw [signsIn_singleton, Token.signs] at excerpt
  rw [flawlessIn, Bool.and_eq_true] at flawless
  exact ⟨flawless.1, excerpt.tail.left⟩

theorem notBackslash (calm : AreCalm tokens) : .lexeme (.literal ['\\']) ∉ signsIn tokens := by
  obtain ⟨text, back, areTidy, cutInto⟩ := calm.excerpt
  exact fun member => cutInto.notBackslash areTidy (List.mem_append_left back member)

/-- The text of calm tokens is that of their signs. -/
theorem writeTokens_eq (calm : AreCalm tokens) :
    writeTokens tokens = writeSigns (separated (signsIn tokens)) := by
  rw [writeTokens, writeAfter_eq calm.flawless calm.notBackslash, signsIn_spacedIn calm.flawless]

theorem tidy (calm : AreCalm tokens) : (writeTokens tokens).all isTidy := by
  obtain ⟨text, back, areTidy, cutInto⟩ := calm.excerpt
  rw [calm.writeTokens_eq]
  exact cutInto.tidy_write areTidy

end AreCalm

/-! ## Blanks around tokens -/

theorem isBlank_of_isGap {c : Char} (gap : isGap c) : isBlank c := by
  simp only [isGap, Bool.or_eq_true, beq_iff_eq] at gap
  rcases gap with (rfl | rfl) | rfl <;> rfl

/-- The token is blank text. -/
def Token.isGap : Token → Bool
  | .single _ (.blank _) => true
  | _ => false

/-- The tokens without the blanks that they begin and end with. -/
def coreOf (tokens : List Token) : List Token :=
  (tokens.dropWhile Token.isGap).rdropWhile Token.isGap

/-- Tokens are their core between blanks. -/
theorem exists_core (tokens : List Token) :
    ∃ left right, tokens = left ++ coreOf tokens ++ right ∧ (∀ token ∈ left, token.isGap) ∧
      ∀ token ∈ right, token.isGap := by
  refine ⟨tokens.takeWhile Token.isGap, (tokens.dropWhile Token.isGap).rtakeWhile Token.isGap, ?_,
    fun token member => List.mem_takeWhile_imp member,
    fun token member => List.mem_rtakeWhile_imp member⟩
  rw [coreOf, List.append_assoc, List.rdropWhile_append_rtakeWhile,
    List.takeWhile_append_dropWhile]

/-- A sign that no blank token is made of. -/
theorem Token.first_signs {token : Token} (flawless : token.isFlawless) (notGap : token.isGap = false) :
    ∃ first more, token.signs = first :: more ∧ ∀ blank, first ≠ .lexeme (.blank blank) := by
  cases token with
  | single position content =>
      cases content with
      | flaw => cases flawless
      | blank => cases notGap
      | _ => exact ⟨_, _, rfl, nofun⟩
  | group position opener content => exact ⟨_, _, rfl, nofun⟩

theorem Token.last_signs {token : Token} (flawless : token.isFlawless) (notGap : token.isGap = false) :
    ∃ before last, token.signs = before ++ [last] ∧ last.isEnding := by
  cases token with
  | single position content =>
      cases content with
      | flaw => cases flawless
      | blank => cases notGap
      | _ => exact ⟨[], _, rfl, rfl⟩
  | group position opener content =>
      exact ⟨.opening opener :: signsIn content, .closing opener.closer, rfl, rfl⟩

/-- Tokens that begin and end with tokens other than blanks. -/
structure IsCore (tokens : List Token) : Prop where
  first : ∀ token ∈ tokens.head?, token.isGap = false
  last : ∀ token ∈ tokens.getLast?, token.isGap = false

theorem isCore_coreOf (tokens : List Token) : IsCore (coreOf tokens) where
  first := fun token isHead => by
    have isPrefix : coreOf tokens <+: tokens.dropWhile Token.isGap := List.rdropWhile_prefix _ _
    have notGap := List.head?_dropWhile_not Token.isGap tokens
    obtain ⟨after, isRest⟩ := isPrefix
    obtain ⟨more, isCore⟩ := List.head?_eq_some_iff.mp isHead
    rw [← isRest, isCore] at notGap
    exact notGap
  last := fun token isLast => by
    have notGap := List.head?_dropWhile_not Token.isGap (tokens.dropWhile Token.isGap).reverse
    rw [coreOf, List.rdropWhile, List.getLast?_reverse] at isLast
    rw [isLast] at notGap
    exact notGap

namespace AreCalm

variable {tokens : List Token}

/-- The last sign of calm tokens that end in no gap may stand at an end. -/
theorem last_signsIn (calm : AreCalm tokens) (isCore : IsCore tokens) (nonempty : tokens ≠ []) :
    ∃ before last, signsIn tokens = before ++ [last] ∧ last.isEnding := by
  cases tokens using List.reverseRecOn with
  | nil => exact absurd rfl nonempty
  | append_singleton tokens token =>
      have flawless := calm.flawless
      rw [flawlessIn_append, flawlessIn, Bool.and_eq_true, Bool.and_eq_true] at flawless
      obtain ⟨before, last, isSigns, isEnding⟩ :=
        Token.last_signs flawless.2.1 (isCore.last token (by rw [List.getLast?_concat]; rfl))
      refine ⟨signsIn tokens ++ before, last, ?_, isEnding⟩
      rw [signsIn_append, signsIn_singleton, isSigns, List.append_assoc]

theorem isEnding (calm : AreCalm tokens) (isCore : IsCore tokens) :
    ∀ sign ∈ (signsIn tokens).getLast?, sign.isEnding := by
  cases tokens with
  | nil => exact nofun
  | cons token more =>
      obtain ⟨before, last, isSigns, isEnding⟩ := calm.last_signsIn isCore (List.cons_ne_nil _ _)
      intro sign isLast
      rw [isSigns, List.getLast?_concat] at isLast
      obtain rfl := Option.some.inj isLast
      exact isEnding

/-- Written tokens are cut into their signs, with empty comments where they would run together. -/
theorem signsOf_writeTokens (calm : AreCalm tokens) (isCore : IsCore tokens) {new : List Char}
    (stops : ∀ c ∈ new.head?, isStop c) :
    signsOf (writeTokens tokens ++ new) = signsIn (spacedIn tokens) ++ signsOf new := by
  obtain ⟨text, back, areTidy, cutInto⟩ := id calm.excerpt
  rw [calm.writeTokens_eq, signsIn_spacedIn calm.flawless]
  exact (cutInto.signsOf_write areTidy (calm.isEnding isCore) stops).1

theorem head_writeTokens (calm : AreCalm tokens) (isCore : IsCore tokens) (nonempty : tokens ≠ []) :
    ∃ written after, writeTokens tokens = written ++ after ∧ Solid written := by
  obtain ⟨token, more, rfl⟩ := List.exists_cons_of_ne_nil nonempty
  have flawless := calm.flawless
  rw [flawlessIn, Bool.and_eq_true] at flawless
  obtain ⟨first, others, isSigns, notBlank⟩ := Token.first_signs flawless.1 (isCore.first token rfl)
  obtain ⟨text, back, areTidy, cutInto⟩ := id calm.excerpt
  rw [calm.writeTokens_eq, signsIn, isSigns, List.cons_append, separated, writeSigns_cons]
  rw [signsIn, isSigns, List.cons_append] at cutInto
  exact ⟨_, _, rfl, cutInto.solid areTidy notBlank⟩

theorem last_writeTokens (calm : AreCalm tokens) (isCore : IsCore tokens) (nonempty : tokens ≠ []) :
    ∃ before written, writeTokens tokens = before ++ written ∧ Solid written := by
  obtain ⟨before, last, isSigns, isEnding⟩ := calm.last_signsIn isCore nonempty
  have excerpt := calm.excerpt
  rw [isSigns] at excerpt
  obtain ⟨text, back, areTidy, cutInto⟩ := excerpt.right
  rw [calm.writeTokens_eq, isSigns, separated_append, writeSigns_append, writeSigns_append]
  have isLast : writeSigns (separated [last]) = last.write := List.append_nil _
  rw [isLast, ← List.append_assoc]
  refine ⟨_, last.write, rfl, cutInto.solid areTidy ?_⟩
  rintro blank rfl
  cases isEnding

theorem solid (calm : AreCalm tokens) (isCore : IsCore tokens) (nonempty : tokens ≠ []) :
    Solid (writeTokens tokens) := by
  obtain ⟨first, after, isText, isFirst⟩ := calm.head_writeTokens isCore nonempty
  obtain ⟨before, last, isText', isLast⟩ := calm.last_writeTokens isCore nonempty
  refine ⟨?_, ?_, ?_⟩
  · rw [isText]
    exact List.append_ne_nil_of_left_ne_nil isFirst.nonempty after
  · rw [isText, List.head?_append_of_ne_nil first isFirst.nonempty]
    exact isFirst.trimmed.1
  · rw [isText', List.getLast?_append_of_ne_nil before isLast.nonempty]
    exact isLast.trimmed.2

theorem core (calm : AreCalm tokens) : AreCalm (coreOf tokens) := by
  obtain ⟨left, right, isTokens, -⟩ := exists_core tokens
  rw [isTokens] at calm
  exact calm.left.right

/-- The text of blanks is blank. -/
theorem isBlank_writeTokens (calm : AreCalm tokens) (areGaps : ∀ token ∈ tokens, token.isGap) :
    ∀ c ∈ writeSigns (signsIn tokens), isBlank c := by
  induction tokens with
  | nil => nofun
  | cons token tokens inductionHypothesis =>
      rw [List.forall_mem_cons] at areGaps
      have later := inductionHypothesis calm.tail areGaps.2
      cases token with
      | group => cases areGaps.1
      | single position content =>
          cases content with
          | blank text =>
              obtain ⟨_, back, areTidy, cutInto⟩ := calm.excerpt
              have gaps := cutInto.areGaps
              intro c member
              have isText : writeSigns (signsIn (.single position (.blank text) :: tokens)) =
                  text ++ writeSigns (signsIn tokens) := writeSigns_cons _ _
              rw [isText] at member
              rcases List.mem_append.mp member with here | there
              · exact isBlank_of_isGap (List.all_eq_true.mp gaps c here)
              · exact later c there
          | _ => cases areGaps.1

end AreCalm

theorem commentBetween_gap {token : Token} (gap : token.isGap) (tokens : List Token) :
    commentBetween token tokens = [] := by
  cases token with
  | group => cases gap
  | single position content =>
      cases content with
      | blank =>
          cases tokens with
          | nil => rfl
          | cons next tokens => simp [commentBetween, runsTogether, joint, Token.kind]
      | _ => cases gap

theorem commentBetween_of_isGap (token : Token) {gaps : List Token}
    (areGaps : ∀ token ∈ gaps, token.isGap) : commentBetween token gaps = [] := by
  cases gaps with
  | nil => rfl
  | cons gap gaps =>
      have isGap := areGaps gap List.mem_cons_self
      cases gap with
      | group => cases isGap
      | single position content =>
          cases content with
          | blank => simp [commentBetween, runsTogether, joint, Token.kind, nameOrNumber]
          | _ => cases isGap

theorem spacedIn_gaps_append {gaps : List Token} (areGaps : ∀ token ∈ gaps, token.isGap)
    (tokens : List Token) : spacedIn (gaps ++ tokens) = gaps ++ spacedIn tokens := by
  induction gaps with
  | nil => rfl
  | cons gap gaps inductionHypothesis =>
      rw [List.forall_mem_cons] at areGaps
      have same : gap.spaced = gap := by
        cases gap with
        | group => cases areGaps.1
        | single => rfl
      rw [List.cons_append, spacedIn, commentBetween_gap areGaps.1, inductionHypothesis areGaps.2, same]
      rfl

theorem spacedIn_append_gaps (tokens : List Token) {gaps : List Token}
    (areGaps : ∀ token ∈ gaps, token.isGap) : spacedIn (tokens ++ gaps) = spacedIn tokens ++ gaps := by
  induction tokens with
  | nil =>
      have whole := spacedIn_gaps_append areGaps []
      rwa [List.append_nil, spacedIn, List.append_nil] at whole
  | cons token tokens inductionHypothesis =>
      have same : commentBetween token (tokens ++ gaps) = commentBetween token tokens := by
        cases tokens with
        | nil => exact commentBetween_of_isGap token areGaps
        | cons next tokens => rfl
      rw [List.cons_append, spacedIn, spacedIn, same, inductionHypothesis]
      simp

/-- The text of calm tokens without the blanks around it is the text of the tokens without
those. -/
theorem AreCalm.trim_writeTokens {tokens : List Token} (calm : AreCalm tokens) :
    trim (writeTokens tokens) = writeTokens (coreOf tokens) := by
  obtain ⟨left, right, isTokens, leftGaps, rightGaps⟩ := exists_core tokens
  have isText : writeTokens tokens =
      writeSigns (signsIn left) ++ writeTokens (coreOf tokens) ++ writeSigns (signsIn right) := by
    rw [calm.writeTokens_eq, ← signsIn_spacedIn calm.flawless, calm.core.writeTokens_eq,
      ← signsIn_spacedIn calm.core.flawless]
    conv_lhs => rw [isTokens]
    rw [spacedIn_append_gaps _ rightGaps, spacedIn_gaps_append leftGaps, signsIn_append,
      signsIn_append, writeSigns_append, writeSigns_append]
  have whole := calm
  rw [isTokens] at whole
  have isTrimmed : IsTrimmed (writeTokens (coreOf tokens)) := by
    by_cases nonempty : coreOf tokens = []
    · rw [nonempty]
      exact ⟨nofun, nofun⟩
    · exact (calm.core.solid (isCore_coreOf tokens) nonempty).trimmed
  rw [isText]
  exact trim_between (whole.left.left.isBlank_writeTokens leftGaps) isTrimmed
    (whole.right.isBlank_writeTokens rightGaps)

/-! ## The tokens of a calm text -/

/-- The text is made of calm signs, and none of its tokens is a flaw. -/
def isCalmText (text : List Char) : Bool :=
  calmFrom (preprocess text) && flawlessIn (tokens text)

theorem areCalm_tokens {text : List Char} (calm : isCalmText text) : AreCalm (tokens text) := by
  rw [isCalmText, Bool.and_eq_true] at calm
  have noStray : ∀ sign ∈ (signsFrom .start (preprocess text)).map Prod.snd, sign.isStray = false := by
    rw [map_signsFrom]
    exact notStray_signsOf (preprocess text)
  obtain ⟨openers, isSigns⟩ := signsIn_nest [] [] noStray
  rw [map_signsFrom] at isSigns
  refine ⟨calm.2, preprocess text, [], all_isTidy_preprocess text, ?_⟩
  have isSigns : signsIn (tokens text) = _ := isSigns
  rw [List.append_nil, isSigns]
  exact cutInto_of_calmFrom calm.1 openers

end ContainerPreview.Css
