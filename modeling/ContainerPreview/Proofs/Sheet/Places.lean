import ContainerPreview.Proofs.Sheet.Value

/-!
# Reading without places

Places are read for messages only: what is read from tokens is the same wherever they stand.
-/

namespace ContainerPreview

open Css

/-! ## Tokens -/

theorem isLiteral_unplaced (text : String) (token : Token) :
    token.unplaced.isLiteral text = token.isLiteral text := by
  cases token with
  | single position content => cases content <;> rfl
  | group => rfl

theorem isInsignificant_unplaced (token : Token) :
    token.unplaced.isInsignificant = token.isInsignificant := by
  cases token with
  | single position content => cases content <;> rfl
  | group => rfl

theorem isCurly_unplaced (token : Token) : token.unplaced.isCurly = token.isCurly := by
  cases token with
  | single => rfl
  | group position opener content => cases opener <;> rfl

theorem position_unplaced (token : Token) : token.unplaced.position = .start := by
  cases token <;> rfl

theorem textOf_unplacedIn (tokens : List Token) : textOf (unplacedIn tokens) = textOf tokens := by
  rw [textOf, writeTokens_unplacedIn, textOf]

/-! ## Declarations -/

namespace Importance

/-- The search with all places at the start. -/
def unplaced : Importance → Importance
  | .value => .value
  | .mark before => .mark (unplacedIn before)
  | .important before => .important (unplacedIn before)

end Importance

/-- What a value amounts to, with all places at the start. -/
def ValueReading.unplaced (reading : ValueReading) : ValueReading :=
  { reading with tokens := unplacedIn reading.tokens }

theorem isWord_unplaced (token : Token) : token.unplaced.isWord = token.isWord := by
  cases token with
  | single position content => cases content <;> rfl
  | group => rfl

theorem Importance.phase_unplaced (state : Importance) : state.unplaced.phase = state.phase := by
  cases state <;> rfl

theorem Importance.advance_unplaced (state : Importance) (before : List Token) (token : Token) :
    state.unplaced.advance (unplacedIn before) token.unplaced =
      (state.advance before token).unplaced := by
  cases state <;>
    simp only [advance, unplaced, isLiteral_unplaced, isInsignificant_unplaced, isWord_unplaced] <;>
    split_ifs <;> rfl

theorem Phase.counts_unplaced (phase : Phase) (token : Token) :
    phase.counts token.unplaced = phase.counts token := by
  cases phase <;>
    simp only [counts, isLiteral_unplaced, isInsignificant_unplaced, isWord_unplaced]

theorem readValue_unplacedIn (before : List Token) (state : Importance) (seen : Bool)
    (tokens : List Token) :
    readValue (unplacedIn before) state.unplaced seen (unplacedIn tokens) =
      (readValue before state seen tokens).unplaced := by
  induction tokens generalizing before state seen with
  | nil =>
      cases state <;>
        simp only [Importance.unplaced, unplacedIn, readValue, ← unplacedIn_reverse] <;> rfl
  | cons token tokens inductionHypothesis =>
      have later := inductionHypothesis (token :: before) (state.advance before token)
        (seen || state.phase.counts token)
      rw [unplacedIn, readValue_cons, readValue_cons, Importance.advance_unplaced,
        Importance.phase_unplaced, Phase.counts_unplaced, isCurly_unplaced, ← unplacedIn, later]
      rfl

namespace ReadError

/-- The problem found at the start. -/
def unplaced (error : ReadError) : ReadError :=
  { error with position := .start }

end ReadError

theorem dropWhile_unplacedIn (tokens : List Token) :
    (unplacedIn tokens).dropWhile Token.isInsignificant =
      unplacedIn (tokens.dropWhile Token.isInsignificant) := by
  induction tokens with
  | nil => rfl
  | cons token tokens inductionHypothesis =>
      rw [unplacedIn, List.dropWhile_cons, List.dropWhile_cons, isInsignificant_unplaced,
        inductionHypothesis]
      split <;> rfl

theorem readDeclaration_unplaced (first : Token) (others : List Token) :
    readDeclaration first.unplaced (unplacedIn others) =
      (readDeclaration first others).mapError ReadError.unplaced := by
  cases first with
  | group position opener content => cases opener <;> rfl
  | single position content =>
      cases content with
      | ident name =>
          simp only [Token.unplaced, readDeclaration, dropWhile_unplacedIn]
          cases others.dropWhile Token.isInsignificant with
          | nil => rfl
          | cons colon value =>
              simp only [unplacedIn, isLiteral_unplaced, position_unplaced]
              have reading := readValue_unplacedIn [] .value false value
              rw [Importance.unplaced, unplacedIn] at reading
              rw [reading]
              split
              · simp only [ValueReading.unplaced, textOf_unplacedIn]
                split
                · rfl
                · rfl
              · rfl
      | _ => rfl

/-! ## Lists -/

/-- What is begun, with all places at the start. -/
def Begun.unplaced : Begun → Begun
  | .nothing => .nothing
  | .atRule name prelude => .atRule name (unplacedIn prelude)
  | .rule _ prelude => .rule .start (unplacedIn prelude)
  | .declaration first others => .declaration first.unplaced (unplacedIn others)

theorem mapError_bind {ε ε' α β : Type} (f : ε → ε') (x : Except ε α) (g : α → Except ε β) :
    (x >>= g).mapError f = x.mapError f >>= fun a => (g a).mapError f := by
  cases x <;> rfl

theorem endOfList_unplaced (source : Option String) (begun : Begun) :
    endOfList source begun.unplaced = (endOfList source begun).mapError ReadError.unplaced := by
  cases begun with
  | nothing => rfl
  | atRule name prelude =>
      simp only [Begun.unplaced, endOfList, ← unplacedIn_reverse, textOf_unplacedIn]
      rfl
  | rule => rfl
  | declaration first others =>
      simp only [Begun.unplaced, endOfList, ← unplacedIn_reverse, readDeclaration_unplaced,
        mapError_bind]
      rfl

theorem blockHead?_unplaced (kind : ListKind) (begun : Begun) :
    blockHead? kind begun.unplaced = blockHead? kind begun := by
  cases begun with
  | nothing => rfl
  | atRule name prelude =>
      simp only [Begun.unplaced, blockHead?, ← unplacedIn_reverse, textOf_unplacedIn]
  | rule last prelude =>
      simp only [Begun.unplaced, blockHead?, ← unplacedIn_reverse, textOf_unplacedIn]
  | declaration => rfl

theorem skips_unplaced (kind : ListKind) (token : Token) :
    kind.skips token.unplaced = kind.skips token := by
  cases token with
  | group => cases kind <;> rfl
  | single position content => cases kind <;> cases content <;> rfl

theorem begins_unplaced (kind : ListKind) (token : Token) :
    kind.begins token.unplaced = (kind.begins token).unplaced := by
  cases token with
  | group => cases kind <;> rfl
  | single position content => cases kind <;> cases content <;> rfl

theorem readToken_unplaced (kind : ListKind) (source : Option String) (begun : Begun)
    (token : Token) :
    readToken kind source begun.unplaced token.unplaced =
      ((readToken kind source begun token).mapError ReadError.unplaced).map
        fun read => (read.1.unplaced, read.2) := by
  cases begun with
  | nothing =>
      have ofOther : (if kind.skips token.unplaced then Begun.nothing else kind.begins token.unplaced) =
          (if kind.skips token then Begun.nothing else kind.begins token).unplaced := by
        rw [skips_unplaced, begins_unplaced]
        split <;> rfl
      cases token with
      | group => exact congrArg (fun begun => Except.ok (begun, [])) ofOther
      | single position content =>
          cases content with
          | comment => rfl
          | _ => exact congrArg (fun begun => Except.ok (begun, [])) ofOther
  | atRule name prelude =>
      have ended := endOfList_unplaced source (.atRule name prelude)
      simp only [Begun.unplaced] at ended
      simp only [Begun.unplaced, readToken, isLiteral_unplaced, ended]
      split <;> rfl
  | rule last prelude =>
      simp only [Begun.unplaced, readToken, position_unplaced]
      rfl
  | declaration first others =>
      have ended := endOfList_unplaced source (.declaration first others)
      simp only [Begun.unplaced] at ended
      simp only [Begun.unplaced, readToken, isLiteral_unplaced, ended]
      split
      · cases endOfList source (.declaration first others) <;> rfl
      · rfl

mutual
theorem readBlock?_unplaced (kind : ListKind) (source : Option String) (begun : Begun) :
    ∀ token : Token, readBlock? kind source begun.unplaced token.unplaced =
      (readBlock? kind source begun token).mapError ReadError.unplaced
  | .single _ _ => rfl
  | .group _ opener content => by
      cases opener with
      | curly =>
          simp only [Token.unplaced, readBlock?, blockHead?_unplaced]
          split
          · rename_i head inner isHead
            have content := readList_unplacedIn inner source .nothing content
            rw [Begun.unplaced] at content
            rw [content, mapError_bind]
            rfl
          · rfl
      | _ => rfl
/-- Places do not matter to what is read. -/
theorem readList_unplacedIn (kind : ListKind) (source : Option String) (begun : Begun) :
    ∀ tokens : List Token, readList kind source begun.unplaced (unplacedIn tokens) =
      (readList kind source begun tokens).mapError ReadError.unplaced
  | [] => endOfList_unplaced source begun
  | token :: rest => by
      have block := readBlock?_unplaced kind source begun token
      have afterBlock := readList_unplacedIn kind source .nothing rest
      have afterToken := fun begun => readList_unplacedIn kind source begun rest
      rw [Begun.unplaced] at afterBlock
      rw [unplacedIn, readList, readList, block, readToken_unplaced, mapError_bind]
      cases readBlock? kind source begun token with
      | error => rfl
      | ok block =>
          cases block with
          | some block =>
              simp only [afterBlock]
              cases readList kind source .nothing rest <;> rfl
          | none =>
              cases readToken kind source begun token with
              | error => rfl
              | ok read =>
                  have later := afterToken read.1
                  simp only [Except.mapError, Except.map, bind, Except.bind, later]
                  cases readList kind source read.1 rest <;> rfl
end

end ContainerPreview
