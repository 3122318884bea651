import ContainerPreview.Proofs.Css.Chain

/-!
# Tokens with comments between them

Where two tokens would run together, an empty comment is written between them.  Tokens with
these comments as tokens of their own are written as the tokens themselves, and their signs are
those of the tokens with the comments between.
-/

namespace ContainerPreview.Css

/-! ## Tokens as they are written -/

/-- What stands between a token and those after it: an empty comment if they would run
together. -/
def commentBetween (token : Token) : List Token → List Token
  | [] => []
  | next :: _ => if runsTogether (joint token) (joint next) then [.single .start (.comment [])] else []

mutual
/-- A token with empty comments between the tokens in it that would run together. -/
def Token.spaced : Token → Token
  | .single position lexeme => .single position lexeme
  | .group position opener content => .group position opener (spacedIn content)
/-- Tokens with empty comments between those that would run together. -/
def spacedIn : List Token → List Token
  | [] => []
  | token :: tokens => token.spaced :: (commentBetween token tokens ++ spacedIn tokens)
end

theorem separated_append (left right : List Sign) :
    separated (left ++ right) =
      separated left ++
        ((left.getLast?.elim [] fun last => separator last right) ++ separated right) := by
  induction left with
  | nil => rfl
  | cons sign left inductionHypothesis =>
      rw [List.cons_append, separated, inductionHypothesis, separated]
      cases left with
      | nil => simp [separator, separated]
      | cons next left => simp [separator]

/-- The last sign of a token and the first of the next one run together as the tokens do. -/
theorem separator_tokens {token : Token} {tokens : List Token} (flawless : token.isFlawless)
    (areFlawless : flawlessIn tokens) :
    (token.signs.getLast?.elim [] fun last => separator last (signsIn tokens)) =
      signsIn (commentBetween token tokens) := by
  cases tokens with
  | nil =>
      cases token.signs.getLast? <;> rfl
  | cons next tokens =>
      rw [flawlessIn, Bool.and_eq_true] at areFlawless
      have isNext : ∃ first more, signsIn (next :: tokens) = first :: more ∧
          first.joint = joint next := by
        cases next with
        | single position content =>
            cases content with
            | flaw => cases areFlawless.1
            | _ => exact ⟨_, _, rfl, rfl⟩
        | group position opener content => exact ⟨_, _, rfl, rfl⟩
      obtain ⟨first, more, isFirst, isJoint⟩ := isNext
      rw [isFirst]
      cases token with
      | single position content =>
          have isSign : (Token.single position content).signs = [.lexeme content] := by
            cases content with
            | flaw => cases flawless
            | _ => rfl
          rw [isSign]
          have sameJoint : (Sign.lexeme content).joint = joint (.single position content) :=
            joint_unplaced (.single position content)
          simp only [List.getLast?_singleton, Option.elim_some, separator, commentBetween, isJoint,
            sameJoint]
          split <;> rfl
      | group position opener content =>
          have isLast : (Token.group position opener content).signs.getLast? =
              some (.closing opener.closer) := by
            rw [Token.signs, ← List.cons_append, List.getLast?_concat]
          have apart : runsTogether (joint (.group position opener content)) (joint next) = false := by
            cases opener <;> simp [runsTogether, joint, Token.kind]
          rw [isLast, commentBetween, apart]
          simp [separator, Sign.joint, runsTogether, signsIn]

mutual
/-- Signs and tokens are spaced in the same way. -/
theorem Token.signs_spaced :
    ∀ {token : Token}, token.isFlawless → token.spaced.signs = separated token.signs
  | .single _ content, flawless => by
      cases content with
      | flaw => cases flawless
      | _ => rfl
  | .group _ opener content, flawless => by
      have inside := signsIn_spacedIn flawless
      rw [Token.spaced, Token.signs, Token.signs, inside, separated, separated_append,
        separator_eq_nil rfl, List.nil_append]
      have noSeparator : ((signsIn content).getLast?.elim [] fun last =>
          separator last [.closing opener.closer]) = [] := by
        cases (signsIn content).getLast? with
        | none => rfl
        | some last => simp [separator, Sign.joint, runsTogether, nameOrNumber]
      rw [noSeparator]
      rfl
theorem signsIn_spacedIn :
    ∀ {tokens : List Token}, flawlessIn tokens → signsIn (spacedIn tokens) = separated (signsIn tokens)
  | [], _ => rfl
  | token :: tokens, flawless => by
      rw [flawlessIn, Bool.and_eq_true] at flawless
      rw [spacedIn, signsIn, signsIn, separated_append, Token.signs_spaced flawless.1,
        signsIn_append, separator_tokens flawless.1 flawless.2, signsIn_spacedIn flawless.2]
end

mutual
theorem Token.isFlawless_spaced : ∀ token : Token, token.spaced.isFlawless = token.isFlawless
  | .single _ _ => rfl
  | .group _ _ content => flawlessIn_spacedIn content
theorem flawlessIn_spacedIn : ∀ tokens : List Token, flawlessIn (spacedIn tokens) = flawlessIn tokens
  | [] => rfl
  | token :: tokens => by
      have noComment : flawlessIn (commentBetween token tokens) := by
        cases tokens with
        | nil => rfl
        | cons next tokens =>
            rw [commentBetween]
            split <;> rfl
      rw [spacedIn, flawlessIn, flawlessIn, flawlessIn_append, noComment, Bool.true_and,
        Token.isFlawless_spaced token, flawlessIn_spacedIn tokens]
end

/-! ## The text of tokens -/

mutual
theorem Token.not_endsOpen : ∀ {token : Token}, token.isFlawless → token.endsOpen = false
  | .single _ _, _ => rfl
  | .group _ opener content, flawless => by
      cases opener with
      | function => exact not_lastEndsOpen flawless
      | _ => rfl
/-- Tokens without flaws do not end in a string that the text ends in. -/
theorem not_lastEndsOpen : ∀ {tokens : List Token}, flawlessIn tokens → lastEndsOpen tokens = false
  | [], _ => rfl
  | [token], flawless => by
      rw [flawlessIn, Bool.and_eq_true] at flawless
      have notOpen := Token.not_endsOpen flawless.1
      cases token with
      | single _ content =>
          cases content with
          | flaw => cases flawless.1
          | _ => rfl
      | group => exact notOpen
  | first :: second :: rest, flawless => by
      rw [flawlessIn, Bool.and_eq_true] at flawless
      rw [lastEndsOpen, not_lastEndsOpen flawless.2]
end

theorem joint_ne_backslash {token : Token} (flawless : token.isFlawless)
    (notBackslash : .lexeme (.literal ['\\']) ∉ token.signs) : joint token ≠ "\\" := by
  cases token with
  | single position content =>
      cases content with
      | literal text =>
          intro isBackslash
          have isText := congrArg String.toList isBackslash
          rw [joint, String.toList_ofList] at isText
          rw [isText] at notBackslash
          exact notBackslash List.mem_cons_self
      | flaw => cases flawless
      | _ => simp [joint, Token.kind]
  | group position opener content => cases opener <;> simp [joint, Token.kind]

theorem writeAfter_some {token : Token} (notBackslash : joint token ≠ "\\") (tokens : List Token) :
    writeAfter (some (joint token)) tokens =
      writeSigns (signsIn (commentBetween token tokens)) ++ writeAfter none tokens := by
  cases tokens with
  | nil => rfl
  | cons next tokens =>
      rw [writeAfter, writeAfter, commentBetween, separatorBetween]
      cases runs : runsTogether (joint token) (joint next) <;>
        simp [runs, separatorBetween, notBackslash, signsIn, Token.signs, writeSigns, Sign.write,
          writeLexeme]

mutual
/-- The text of a token is that of its signs. -/
theorem Token.write_eq : ∀ {token : Token}, token.isFlawless →
    .lexeme (.literal ['\\']) ∉ token.signs → token.write = writeSigns token.spaced.signs
  | .single _ content, flawless, _ => by
      cases content with
      | flaw => cases flawless
      | _ => simp [Token.write, Token.spaced, Token.signs, writeSigns, Sign.write]
  | .group _ opener content, flawless, notBackslash => by
      have areFlawless : flawlessIn content := flawless
      have inside := writeAfter_eq areFlawless fun member => notBackslash (by
        rw [Token.signs]
        exact List.mem_cons_of_mem _ (List.mem_append_left _ member))
      have closed := not_lastEndsOpen areFlawless
      rw [Token.spaced, Token.signs, writeSigns_cons, writeSigns_append]
      cases opener <;>
        simp [Token.write, inside, closed, Sign.write, Opener.closer, writeSigns]
/-- The text of tokens is that of their signs. -/
theorem writeAfter_eq : ∀ {tokens : List Token}, flawlessIn tokens →
    .lexeme (.literal ['\\']) ∉ signsIn tokens →
      writeAfter none tokens = writeSigns (signsIn (spacedIn tokens))
  | [], _, _ => rfl
  | token :: tokens, flawless, notBackslash => by
      rw [flawlessIn, Bool.and_eq_true] at flawless
      rw [signsIn, List.mem_append, not_or] at notBackslash
      rw [writeAfter, separatorBetween, List.nil_append,
        writeAfter_some (joint_ne_backslash flawless.1 notBackslash.1),
        Token.write_eq flawless.1 notBackslash.1, writeAfter_eq flawless.2 notBackslash.2, spacedIn,
        signsIn, signsIn_append, writeSigns_append, writeSigns_append]
end

end ContainerPreview.Css
