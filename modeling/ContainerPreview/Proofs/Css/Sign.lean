import ContainerPreview.Css.Printer
import ContainerPreview.Css.Scanner

/-!
# Signs and tokens without places

The place of a token matters for messages only.  Without places a text is cut into the same
signs wherever it stands, tokens are flattened into the signs that they are made of, and
nesting those signs gives the tokens back.
-/

namespace ContainerPreview.Css

/-! ## The signs of a text -/

/-- The signs of a text without their places. -/
def signsOf (text : List Char) : List Sign :=
  match text with
  | [] => []
  | c :: rest => (signsAt c rest).1 ++ signsOf (rest.drop ((signsAt c rest).2 - 1))
termination_by text.length
decreasing_by
  simp only [List.length_drop, List.length_cons]
  omega

theorem signsOf_nil : signsOf [] = [] := by
  rw [signsOf]

/-- A text goes on after its first cut. -/
theorem signsOf_cons {c : Char} {taken rest : List Char} {signs : List Sign}
    (cut : signsAt c (taken ++ rest) = (signs, taken.length + 1)) :
    signsOf (c :: (taken ++ rest)) = signs ++ signsOf rest := by
  rw [signsOf, cut, Nat.add_sub_cancel, List.drop_left]

theorem map_signsFrom (position : Position) (text : List Char) :
    (signsFrom position text).map Prod.snd = signsOf text := by
  fun_induction signsFrom position text with
  | case1 => rw [signsOf_nil]; rfl
  | case2 position c rest signs length isCut inductionHypothesis =>
      rw [List.map_append, inductionHypothesis, signsOf, isCut, List.map_map]
      exact congrArg (· ++ _) (List.map_id signs)

/-! ## Tokens without places -/

mutual
/-- The token with all places at the start. -/
def Token.unplaced : Token → Token
  | .single _ lexeme => .single .start lexeme
  | .group _ opener content => .group .start opener (unplacedIn content)
/-- The tokens with all places at the start. -/
def unplacedIn : List Token → List Token
  | [] => []
  | token :: tokens => token.unplaced :: unplacedIn tokens
end

theorem unplacedIn_eq_map (tokens : List Token) : unplacedIn tokens = tokens.map Token.unplaced := by
  induction tokens with
  | nil => rfl
  | cons token tokens inductionHypothesis => rw [unplacedIn, inductionHypothesis, List.map_cons]

theorem unplacedIn_reverse (tokens : List Token) :
    unplacedIn tokens.reverse = (unplacedIn tokens).reverse := by
  simp only [unplacedIn_eq_map, List.map_reverse]

/-- The open group with all places at the start. -/
def OpenGroup.unplaced (group : OpenGroup) : OpenGroup :=
  { position := .start, opener := group.opener, before := unplacedIn group.before }

/-- The signs at the start of a text. -/
def placeAll (signs : List Sign) : List (Position × Sign) :=
  signs.map (Position.start, ·)

theorem unplacedIn_closeAll (groups : List OpenGroup) (tokens : List Token) :
    unplacedIn (closeAll groups tokens) =
      closeAll (groups.map OpenGroup.unplaced) (unplacedIn tokens) := by
  induction groups generalizing tokens with
  | nil => exact unplacedIn_reverse tokens
  | cons group groups inductionHypothesis =>
      rw [closeAll, inductionHypothesis, List.map_cons, closeAll, unplacedIn, Token.unplaced,
        unplacedIn_reverse]
      rfl

/-- Nesting does not depend on places. -/
theorem unplacedIn_nest (groups : List OpenGroup) (tokens : List Token)
    (signs : List (Position × Sign)) :
    unplacedIn (nest groups tokens signs) =
      nest (groups.map OpenGroup.unplaced) (unplacedIn tokens)
        (placeAll (signs.map Prod.snd)) := by
  induction signs generalizing groups tokens with
  | nil => exact unplacedIn_closeAll groups tokens
  | cons first signs inductionHypothesis =>
      obtain ⟨position, sign⟩ := first
      cases sign with
      | lexeme lexeme => exact inductionHypothesis groups (.single position lexeme :: tokens)
      | opening opener =>
          exact inductionHypothesis ({ position, opener, before := tokens } :: groups) []
      | closing closer =>
          cases groups with
          | nil => exact inductionHypothesis [] (.single position (.flaw (.strayCloser closer)) :: tokens)
          | cons group outer =>
              have sameOpener : group.unplaced.opener = group.opener := rfl
              simp only [nest, List.map_cons, placeAll, sameOpener]
              split
              · rw [inductionHypothesis, unplacedIn, Token.unplaced, unplacedIn_reverse]
                rfl
              · exact inductionHypothesis (group :: outer)
                  (.single position (.flaw (.strayCloser closer)) :: tokens)

/-! ## The signs that tokens are made of -/

mutual
/-- The signs that a token is made of. -/
def Token.signs : Token → List Sign
  | .single _ (.flaw (.strayCloser closer)) => [.closing closer]
  | .single _ lexeme => [.lexeme lexeme]
  | .group _ opener content => .opening opener :: (signsIn content ++ [.closing opener.closer])
/-- The signs that tokens are made of. -/
def signsIn : List Token → List Sign
  | [] => []
  | token :: tokens => token.signs ++ signsIn tokens
end

theorem signsIn_append (left right : List Token) :
    signsIn (left ++ right) = signsIn left ++ signsIn right := by
  induction left with
  | nil => rfl
  | cons token tokens inductionHypothesis =>
      rw [List.cons_append, signsIn, inductionHypothesis, signsIn, List.append_assoc]

theorem signsIn_singleton (token : Token) : signsIn [token] = token.signs := by
  rw [signsIn, signsIn, List.append_nil]

/-- The signs of open groups and of the tokens, in reverse, of the innermost one. -/
def openSigns : List OpenGroup → List Token → List Sign
  | [], tokens => signsIn tokens.reverse
  | group :: groups, tokens =>
      openSigns groups group.before ++ .opening group.opener :: signsIn tokens.reverse

theorem openSigns_cons (groups : List OpenGroup) (token : Token) (tokens : List Token) :
    openSigns groups (token :: tokens) = openSigns groups tokens ++ token.signs := by
  cases groups <;> simp [openSigns, signsIn_append, signsIn_singleton]

theorem openSigns_close (group : OpenGroup) (groups : List OpenGroup) (tokens : List Token)
    (position : Position) :
    openSigns groups (.group position group.opener tokens.reverse :: group.before) =
      openSigns (group :: groups) tokens ++ [.closing group.opener.closer] := by
  rw [openSigns_cons, Token.signs, openSigns]
  simp

/-- The groups that are open at the end are closed there. -/
theorem signsIn_closeAll (groups : List OpenGroup) (tokens : List Token) :
    ∃ openers : List Opener, signsIn (closeAll groups tokens) =
      openSigns groups tokens ++ openers.map fun opener => .closing opener.closer := by
  induction groups generalizing tokens with
  | nil => exact ⟨[], (List.append_nil _).symm⟩
  | cons group groups inductionHypothesis =>
      obtain ⟨openers, same⟩ := inductionHypothesis
        (.group group.position group.opener tokens.reverse :: group.before)
      refine ⟨group.opener :: openers, ?_⟩
      rw [closeAll, same, openSigns_close, List.append_assoc]
      rfl

/-- A closing bracket as a flaw, which cutting leaves to nesting. -/
def Sign.isStray : Sign → Bool
  | .lexeme (.flaw (.strayCloser _)) => true
  | _ => false

/-- The tokens that signs nest into are made of those signs, and of the closers that are
missing at the end. -/
theorem signsIn_nest (groups : List OpenGroup) (tokens : List Token)
    {signs : List (Position × Sign)} (noStray : ∀ sign ∈ signs.map Prod.snd, sign.isStray = false) :
    ∃ openers : List Opener, signsIn (nest groups tokens signs) =
      openSigns groups tokens ++
        (signs.map Prod.snd ++ openers.map fun opener => .closing opener.closer) := by
  induction signs generalizing groups tokens with
  | nil => exact signsIn_closeAll groups tokens
  | cons first signs inductionHypothesis =>
      obtain ⟨position, sign⟩ := first
      rw [List.map_cons, List.forall_mem_cons] at noStray
      obtain ⟨notStray, noStray⟩ := noStray
      have push : ∀ token : Token, token.signs = [sign] →
          (∃ openers : List Opener, signsIn (nest groups (token :: tokens) signs) =
            openSigns groups tokens ++
              (sign :: signs.map Prod.snd ++ openers.map fun opener => .closing opener.closer)) :=
        fun token isSign => by
          obtain ⟨openers, same⟩ := inductionHypothesis groups (token :: tokens) noStray
          exact ⟨openers, by rw [same, openSigns_cons, isSign]; simp⟩
      cases sign with
      | lexeme lexeme =>
          cases lexeme with
          | flaw flaw =>
              cases flaw with
              | strayCloser => cases notStray
              | _ => exact push _ rfl
          | _ => exact push _ rfl
      | opening opener =>
          obtain ⟨openers, same⟩ :=
            inductionHypothesis ({ position, opener, before := tokens } :: groups) [] noStray
          refine ⟨openers, same.trans ?_⟩
          simp [openSigns, signsIn]
      | closing closer =>
          cases groups with
          | nil => exact push (.single position (.flaw (.strayCloser closer))) rfl
          | cons group outer =>
              rw [nest]
              split
              · rename_i isCloser
                obtain ⟨openers, same⟩ := inductionHypothesis outer
                  (.group group.position group.opener tokens.reverse :: group.before) noStray
                refine ⟨openers, same.trans ?_⟩
                rw [openSigns_close, beq_iff_eq.mp isCloser]
                simp
              · exact push (.single position (.flaw (.strayCloser closer))) rfl

/-! ## Tokens without flaws -/

mutual
/-- There is no flaw in a token. -/
def Token.isFlawless : Token → Bool
  | .single _ (.flaw _) => false
  | .single _ _ => true
  | .group _ _ content => flawlessIn content
/-- There is no flaw in the tokens. -/
def flawlessIn : List Token → Bool
  | [] => true
  | token :: tokens => token.isFlawless && flawlessIn tokens
end

theorem flawlessIn_eq_all (tokens : List Token) : flawlessIn tokens = tokens.all Token.isFlawless := by
  induction tokens with
  | nil => rfl
  | cons token tokens inductionHypothesis => rw [flawlessIn, inductionHypothesis, List.all_cons]

theorem flawlessIn_append (left right : List Token) :
    flawlessIn (left ++ right) = (flawlessIn left && flawlessIn right) := by
  simp only [flawlessIn_eq_all, List.all_append]

mutual
theorem Token.not_flaw_of_mem_signs :
    ∀ {token : Token}, token.isFlawless → ∀ flaw, .lexeme (.flaw flaw) ∉ token.signs
  | .single _ lexeme, flawless => by
      cases lexeme with
      | flaw => cases flawless
      | _ => simp [Token.signs]
  | .group _ opener content, flawless => by
      intro flaw member
      simp only [Token.signs, List.mem_cons, List.mem_append, List.not_mem_nil, or_false,
        reduceCtorEq, false_or] at member
      exact not_flaw_of_mem_signsIn flawless flaw member
theorem not_flaw_of_mem_signsIn :
    ∀ {tokens : List Token}, flawlessIn tokens → ∀ flaw, .lexeme (.flaw flaw) ∉ signsIn tokens
  | [], _ => by simp [signsIn]
  | token :: tokens, flawless => by
      rw [flawlessIn, Bool.and_eq_true] at flawless
      intro flaw member
      rcases List.mem_append.mp member with here | later
      · exact Token.not_flaw_of_mem_signs flawless.1 flaw here
      · exact not_flaw_of_mem_signsIn flawless.2 flaw later
end

mutual
/-- The signs of a token nest into that token. -/
theorem Token.nest_signs (groups : List OpenGroup) (before : List Token)
    (more : List (Position × Sign)) :
    ∀ {token : Token}, token.isFlawless →
      nest groups before (placeAll token.signs ++ more) =
        nest groups (token.unplaced :: before) more
  | .single _ lexeme, flawless => by
      cases lexeme with
      | flaw => cases flawless
      | _ => rfl
  | .group _ opener content, flawless => by
      have inside : nest ({ position := .start, opener, before } :: groups) []
          (placeAll (signsIn content) ++ (.start, .closing opener.closer) :: more) = _ :=
        nest_signsIn _ [] ((.start, .closing opener.closer) :: more) flawless
      have isSigns : placeAll (Token.group .start opener content).signs ++ more =
          (.start, .opening opener) ::
            (placeAll (signsIn content) ++ (.start, .closing opener.closer) :: more) := by
        simp [Token.signs, placeAll]
      refine (congrArg (nest groups before) isSigns).trans ?_
      rw [nest, inside, nest, if_pos (beq_self_eq_true _), List.append_nil, List.reverse_reverse]
      rfl
/-- The signs of tokens nest into those tokens. -/
theorem nest_signsIn (groups : List OpenGroup) (before : List Token)
    (more : List (Position × Sign)) :
    ∀ {tokens : List Token}, flawlessIn tokens →
      nest groups before (placeAll (signsIn tokens) ++ more) =
        nest groups ((unplacedIn tokens).reverse ++ before) more
  | [], _ => rfl
  | token :: tokens, flawless => by
      rw [flawlessIn, Bool.and_eq_true] at flawless
      have first := Token.nest_signs groups before (placeAll (signsIn tokens) ++ more) flawless.1
      have others := nest_signsIn groups (token.unplaced :: before) more flawless.2
      rw [signsIn, placeAll, List.map_append, List.append_assoc]
      refine first.trans (others.trans ?_)
      rw [unplacedIn, List.reverse_cons, List.append_assoc]
      rfl
end

/-- A text that is cut into the signs of tokens has those tokens. -/
theorem unplacedIn_tokens {text : List Char} {expected : List Token} (flawless : flawlessIn expected)
    (isCut : signsOf (preprocess text) = signsIn expected) :
    unplacedIn (tokens text) = unplacedIn expected := by
  have nested := nest_signsIn [] [] [] flawless
  rw [List.append_nil, List.append_nil] at nested
  rw [tokens, unplacedIn_nest, map_signsFrom, isCut]
  refine nested.trans ?_
  rw [nest, closeAll, List.reverse_reverse]

/-! ## Writing without places -/

theorem joint_unplaced (token : Token) : joint token.unplaced = joint token := by
  cases token with
  | single _ lexeme => cases lexeme <;> rfl
  | group _ opener content => cases opener <;> rfl

theorem startsLine_unplaced (token : Token) : startsLine token.unplaced = startsLine token := by
  cases token with
  | single _ lexeme => cases lexeme <;> rfl
  | group => rfl

mutual
theorem Token.endsOpen_unplaced : ∀ token : Token, token.unplaced.endsOpen = token.endsOpen
  | .single _ _ => rfl
  | .group _ opener content => by
      cases opener with
      | function => exact lastEndsOpen_unplacedIn content
      | _ => rfl
theorem lastEndsOpen_unplacedIn :
    ∀ tokens : List Token, lastEndsOpen (unplacedIn tokens) = lastEndsOpen tokens
  | [] => rfl
  | [token] => by
      have same := Token.endsOpen_unplaced token
      cases token with
      | single _ lexeme =>
          cases lexeme with
          | flaw flaw => cases flaw <;> rfl
          | _ => rfl
      | group _ opener content => exact same
  | first :: second :: rest => by
      have same := lastEndsOpen_unplacedIn (second :: rest)
      rw [unplacedIn, lastEndsOpen, ← same, unplacedIn, lastEndsOpen]
end

mutual
theorem Token.write_unplaced : ∀ token : Token, token.unplaced.write = token.write
  | .single _ _ => rfl
  | .group _ opener content => by
      cases opener <;>
        simp only [Token.unplaced, Token.write, writeAfter_unplacedIn none content,
          lastEndsOpen_unplacedIn content]
theorem writeAfter_unplacedIn (left : Option String) :
    ∀ tokens : List Token, writeAfter left (unplacedIn tokens) = writeAfter left tokens
  | [] => rfl
  | token :: tokens => by
      rw [unplacedIn, writeAfter, writeAfter, Token.write_unplaced token, joint_unplaced,
        writeAfter_unplacedIn _ tokens]
      have sameSeparator : separatorBetween left token.unplaced = separatorBetween left token := by
        cases left with
        | none => rfl
        | some left => simp only [separatorBetween, joint_unplaced, startsLine_unplaced]
      rw [sameSeparator]
end

theorem writeTokens_unplacedIn (tokens : List Token) :
    writeTokens (unplacedIn tokens) = writeTokens tokens :=
  writeAfter_unplacedIn none tokens

end ContainerPreview.Css
