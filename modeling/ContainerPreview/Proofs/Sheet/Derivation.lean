import ContainerPreview.Proofs.Sheet.Restored

/-!
# How a list has been read

Reading a list goes on in three ways: the list ends, a block comes, or one more token is taken for
what is begun.  What is begun becomes entries where it ends, or the head of a block.  `Reads` is the
relation that these ways make up, and every list that has been read stands in it to its nodes.  What
is true of all that is read is proved by induction on it.
-/

namespace ContainerPreview

open Css

variable {kind : ListKind} {source : Option String}

/-! ## What ends an entry -/

/-- What is begun ends without a block, as these entries. -/
inductive Ends (source : Option String) : Begun → List Node → Prop where
  | nothing : Ends source .nothing []
  | atRule (name : String) (prelude : List Token) :
      Ends source (.atRule name prelude)
        [.block source (.atRule name (textOf prelude.reverse) false) false []]
  | declaration {first : Token} {others : List Token} {declaration : Declaration}
      (isRead : readDeclaration first others.reverse = .ok declaration) :
      Ends source (.declaration first others) [.leaf source (.declaration declaration)]

theorem ends_of_endOfList {begun : Begun} {entries : List Node}
    (ended : endOfList source begun = .ok entries) : Ends source begun entries := by
  cases begun with
  | nothing =>
      cases ended
      exact .nothing
  | atRule name prelude =>
      cases ended
      exact .atRule name prelude
  | rule => cases ended
  | declaration first others =>
      rw [endOfList] at ended
      cases isRead : readDeclaration first others.reverse with
      | error => rw [isRead] at ended; cases ended
      | ok declaration =>
          rw [isRead] at ended
          cases ended
          exact .declaration isRead

/-- What is begun becomes the head of a block, and the content of the block is read in a way. -/
inductive Heads (kind : ListKind) : Begun → Head → ListKind → Prop where
  | nameless (isKind : kind ≠ .declarations) : Heads kind .nothing (.rule "") .declarations
  | atRule (name : String) (prelude : List Token) :
      Heads kind (.atRule name prelude) (.atRule name (textOf prelude.reverse) true)
        (.ofAtRule name)
  | rule (last : Position) (prelude : List Token) :
      Heads kind (.rule last prelude) (.rule (textOf prelude.reverse)) .declarations

theorem heads_of_blockHead? {begun : Begun} {head : Head} {inner : ListKind}
    (isHead : blockHead? kind begun = some (head, inner)) : Heads kind begun head inner := by
  cases begun with
  | nothing =>
      rw [blockHead?] at isHead
      split at isHead
      · cases isHead
      · rename_i isKind
        cases isHead
        exact .nameless (by simpa using isKind)
  | atRule name prelude =>
      cases isHead
      exact .atRule name prelude
  | rule last prelude =>
      cases isHead
      exact .rule last prelude
  | declaration => cases isHead

/-! ## One more token -/

/-- What one more token that is no block makes of what is begun, and the entries that it ends. -/
inductive TokenStep (kind : ListKind) (source : Option String) :
    Begun → Token → Begun → List Node → Prop where
  | comment (position : Position) (text : List Char) :
      TokenStep kind source .nothing (.single position (.comment text)) .nothing
        [.leaf source (.comment (String.ofList text))]
  | skip {token : Token} (skips : kind.skips token) :
      TokenStep kind source .nothing token .nothing []
  | start {token : Token} (notComment : ∀ position text, token ≠ .single position (.comment text))
      (notSkipped : kind.skips token = false)
      (notCurly : kind ≠ .declarations → token.isCurly = false) :
      TokenStep kind source .nothing token (kind.begins token) []
  | finish {begun : Begun} {token : Token} {entries : List Node}
      (ends : Ends source begun entries) :
      TokenStep kind source begun token .nothing entries
  | goOn {begun : Begun} {token : Token} (takes : begun.takes token) :
      TokenStep kind source begun token (begun.push token) []

theorem notCurly_of_noBlock {begun : Begun} {token : Token}
    (noBlock : readBlock? kind source begun token = .ok none)
    (isHead : (blockHead? kind begun).isSome) : token.isCurly = false := by
  obtain ⟨⟨head, inner⟩, isHead⟩ := Option.isSome_iff_exists.mp isHead
  cases token with
  | single => rfl
  | group position opener content =>
      cases opener with
      | curly =>
          rw [readBlock?, isHead] at noBlock
          cases isRead : readList inner source .nothing content <;>
            (simp only [isRead] at noBlock; cases noBlock)
      | _ => rfl

/-- Between two entries a token is a comment, is skipped or begins something. -/
theorem tokenStep_nothing {after : Begun} {token : Token} {entries : List Node}
    (noBlock : readBlock? kind source .nothing token = .ok none)
    (isRead : readToken kind source .nothing token = .ok (after, entries)) :
    TokenStep kind source .nothing token after entries := by
  have ofOther (notComment : ∀ position text, token ≠ .single position (.comment text))
      (isRead : (if kind.skips token then .nothing else kind.begins token, []) = (after, entries)) :
      TokenStep kind source .nothing token after entries := by
    obtain ⟨rfl, rfl⟩ := Prod.mk.inj isRead
    split
    · exact .skip ‹_›
    · rename_i notSkipped
      exact .start notComment (Bool.eq_false_iff.mpr notSkipped) fun isKind =>
        notCurly_of_noBlock noBlock (by simp [blockHead?, isKind])
  cases token with
  | group => exact ofOther (fun _ _ same => by cases same) (Except.ok.inj isRead)
  | single position content =>
      cases content with
      | comment text =>
          cases isRead
          exact .comment position text
      | _ => exact ofOther (fun _ _ same => by cases same) (Except.ok.inj isRead)

theorem tokenStep_of_endOfList {begun after : Begun} {token : Token} {entries : List Node}
    (isRead : (endOfList source begun >>= fun entries => pure (Begun.nothing, entries)) =
      .ok (after, entries)) : TokenStep kind source begun token after entries := by
  cases ended : endOfList source begun with
  | error => rw [ended] at isRead; cases isRead
  | ok nodes =>
      rw [ended] at isRead
      cases isRead
      exact .finish (ends_of_endOfList ended)

/-- A token that is no block is taken in one of these ways. -/
theorem tokenStep_of_readToken {begun after : Begun} {token : Token} {entries : List Node}
    (noBlock : readBlock? kind source begun token = .ok none)
    (isRead : readToken kind source begun token = .ok (after, entries)) :
    TokenStep kind source begun token after entries := by
  cases begun with
  | nothing => exact tokenStep_nothing noBlock isRead
  | atRule name prelude =>
      have notCurly := notCurly_of_noBlock noBlock rfl
      rw [readToken] at isRead
      split at isRead
      · exact tokenStep_of_endOfList isRead
      · rename_i notEnd
        cases isRead
        exact .goOn (by simp [Begun.takes, notCurly, notEnd])
  | rule last prelude =>
      have notCurly := notCurly_of_noBlock noBlock rfl
      cases isRead
      exact .goOn (by simp [Begun.takes, notCurly])
  | declaration first others =>
      rw [readToken] at isRead
      split at isRead
      · exact tokenStep_of_endOfList isRead
      · rename_i notEnd
        cases isRead
        exact .goOn (by simp [Begun.takes, notEnd])

/-! ## The whole list -/

/-- The tokens that follow what is begun are read as the nodes. -/
inductive Reads (source : Option String) : ListKind → Begun → List Token → List Node → Prop where
  | ended {kind : ListKind} {begun : Begun} {nodes : List Node}
      (ends : Ends source begun nodes) : Reads source kind begun [] nodes
  | block {kind inner : ListKind} {begun : Begun} {head : Head} (position : Position)
      {content rest : List Token} {children later : List Node}
      (heads : Heads kind begun head inner)
      (ofContent : Reads source inner .nothing content children)
      (ofRest : Reads source kind .nothing rest later) :
      Reads source kind begun (.group position .curly content :: rest)
        (.block source head false children :: later)
  | token {kind : ListKind} {begun after : Begun} {token : Token} {rest : List Token}
      {entries later : List Node} (step : TokenStep kind source begun token after entries)
      (ofRest : Reads source kind after rest later) :
      Reads source kind begun (token :: rest) (entries ++ later)

mutual
theorem reads_block {kind : ListKind} {begun : Begun} {node : Node} {rest : List Token}
    {later : List Node} (ofRest : Reads source kind .nothing rest later) :
    ∀ {token : Token}, readBlock? kind source begun token = .ok (some node) →
      Reads source kind begun (token :: rest) (node :: later)
  | .single _ _, isRead => by cases isRead
  | .group position opener content, isRead => by
      cases opener with
      | curly =>
          rw [readBlock?] at isRead
          split at isRead
          · rename_i head inner isHead
            cases isContent : readList inner source .nothing content with
            | error => rw [isContent] at isRead; cases isRead
            | ok children =>
                rw [isContent] at isRead
                cases isRead
                exact .block position (heads_of_blockHead? isHead) (reads_of_readList isContent)
                  ofRest
          · cases isRead
      | _ => cases isRead
/-- What a list has been read as, its tokens are read as. -/
theorem reads_of_readList {kind : ListKind} {begun : Begun} {nodes : List Node} :
    ∀ {tokens : List Token}, readList kind source begun tokens = .ok nodes →
      Reads source kind begun tokens nodes
  | [], isRead => .ended (ends_of_endOfList isRead)
  | token :: rest, isRead => by
      rw [readList] at isRead
      cases isBlock : readBlock? kind source begun token with
      | error => rw [isBlock] at isRead; cases isRead
      | ok block =>
          rw [isBlock] at isRead
          cases block with
          | some block =>
              cases isRest : readList kind source .nothing rest with
              | error => simp only [isRest] at isRead; cases isRead
              | ok nodes =>
                  simp only [isRest] at isRead
                  cases isRead
                  exact reads_block (reads_of_readList isRest) isBlock
          | none =>
              cases isToken : readToken kind source begun token with
              | error => simp only [isToken] at isRead; cases isRead
              | ok read =>
                  obtain ⟨after, entries⟩ := read
                  cases isRest : readList kind source after rest with
                  | error => simp only [isToken, isRest, bind, Except.bind] at isRead; cases isRead
                  | ok nodes =>
                      simp only [isToken, isRest, bind, Except.bind] at isRead
                      cases isRead
                      exact .token (tokenStep_of_readToken isBlock isToken)
                        (reads_of_readList isRest)
end

end ContainerPreview
