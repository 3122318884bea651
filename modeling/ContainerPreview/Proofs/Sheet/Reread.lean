import ContainerPreview.Proofs.Sheet.Declared
import ContainerPreview.Proofs.Sheet.Derivation

/-!
# Lists that are read again

One more token leaves what is begun in a list such that it can be read again, and every entry
that it ends is restored.  By induction on how a list has been read, all that is read from calm
tokens is restored.
-/

namespace ContainerPreview

open Css Text

variable {kind : ListKind} {source : Option String}

namespace Begun

/-- The tokens of what is begun that are kept. -/
def kept : Begun → List Token
  | .nothing => []
  | .atRule _ prelude | .rule _ prelude => prelude.reverse
  | .declaration first others => first :: others.reverse

/-- What can be begun in a list. -/
inductive IsSound (kind : ListKind) : Begun → Prop where
  | nothing : IsSound kind .nothing
  | atRule {name : List Char} {prelude : List Token} (isIdent : IsIdent name)
      (takes : ∀ token ∈ prelude, (Begun.atRule (atRuleName name) []).takes token) :
      IsSound kind (.atRule (atRuleName name) prelude)
  | rule {last : Position} {first : Token} {others : List Token} (starts : kind.startsRule first)
      (noCurly : ∀ token ∈ others, token.isCurly = false) :
      IsSound kind (.rule last (others ++ [first]))
  | declaration {first : Token} {others : List Token} (isKind : kind = .declarations)
      (noEnd : ∀ token ∈ others, token.isLiteral ";" = false) :
      IsSound kind (.declaration first others)

end Begun

/-- What is begun is read again where it ends. -/
theorem Ends.restored {begun : Begun} {entries : List Node} (ends : Ends source begun entries)
    (sound : begun.IsSound kind) (calm : AreCalm begun.kept) :
    ∀ node ∈ entries, Restored kind source node := by
  cases ends with
  | nothing => exact List.forall_mem_nil _
  | atRule name prelude =>
      cases sound with
      | atRule isIdent takes =>
          rw [List.forall_mem_singleton]
          exact restored_atRule isIdent calm fun token member =>
            takes token (List.mem_reverse.mp member)
  | declaration isRead =>
      cases sound with
      | declaration isKind noEnd =>
          subst isKind
          rw [List.forall_mem_singleton]
          exact restored_declaration calm
            (fun token member => noEnd token (List.mem_reverse.mp member)) isRead

/-- What a token begins is sound. -/
theorem sound_begins {token : Token} {rest : List Token} (calm : AreCalm (token :: rest))
    (notCurly : kind ≠ .declarations → token.isCurly = false) (notSkipped : kind.skips token = false)
    (notComment : ∀ position text, token ≠ .single position (.comment text)) :
    (kind.begins token).IsSound kind ∧ AreCalm ((kind.begins token).kept ++ rest) := by
  have ofOther (notAtRule : ∀ position name, token ≠ .single position (.atKeyword name)) :
      (kind.begins token).IsSound kind ∧ AreCalm ((kind.begins token).kept ++ rest) := by
    by_cases isKind : kind = .declarations
    · subst isKind
      have begins : ListKind.declarations.begins token = .declaration token [] := by
        unfold ListKind.begins
        split
        · exact absurd rfl (notAtRule _ _)
        · rfl
      rw [begins]
      exact ⟨.declaration rfl (List.forall_mem_nil _), calm⟩
    · have begins : kind.begins token = .rule token.position [token] := by
        unfold ListKind.begins
        split
        · exact absurd rfl (notAtRule _ _)
        · cases kind <;> first | rfl | exact absurd rfl isKind
      have starts : kind.startsRule token := by
        unfold ListKind.startsRule
        split
        · exact absurd rfl (notComment _ _)
        · exact absurd rfl (notAtRule _ _)
        · simp [isKind, notCurly isKind, notSkipped]
      rw [begins]
      have sound : Begun.IsSound kind (.rule token.position ([] ++ [token])) :=
        .rule starts (List.forall_mem_nil _)
      exact ⟨sound, calm⟩
  cases token with
  | group => exact ofOther nofun
  | single position content =>
      cases content with
      | atKeyword name =>
          have isIdent := calm.isIdent rfl
          exact ⟨.atRule isIdent (List.forall_mem_nil _), calm.tail⟩
      | _ => exact ofOther nofun

namespace Begun

theorem IsSound.push {begun : Begun} {token : Token} (sound : begun.IsSound kind)
    (takes : begun.takes token) : (begun.push token).IsSound kind := by
  cases sound with
  | nothing => cases takes
  | atRule isIdent others => exact .atRule isIdent (List.forall_mem_cons.mpr ⟨takes, others⟩)
  | @rule last first others starts noCurly =>
      have notCurly : token.isCurly = false := by simpa [Begun.takes] using takes
      have whole : ∀ other ∈ token :: others, other.isCurly = false :=
        List.forall_mem_cons.mpr ⟨notCurly, noCurly⟩
      exact .rule starts whole
  | declaration isKind noEnd =>
      have notEnd : token.isLiteral ";" = false := by simpa [Begun.takes] using takes
      exact .declaration isKind (List.forall_mem_cons.mpr ⟨notEnd, noEnd⟩)

theorem kept_push {begun : Begun} {token : Token} (takes : begun.takes token) :
    (begun.push token).kept = begun.kept ++ [token] := by
  cases begun with
  | nothing => cases takes
  | _ => simp [push, kept]

end Begun

/-- One more token leaves what is begun sound, and the entries that it ends are read again. -/
theorem TokenStep.sound {begun after : Begun} {token : Token} {rest : List Token}
    {entries : List Node} (step : TokenStep kind source begun token after entries)
    (sound : begun.IsSound kind) (calm : AreCalm (begun.kept ++ token :: rest)) :
    after.IsSound kind ∧ AreCalm (after.kept ++ rest) ∧
      ∀ node ∈ entries, Restored kind source node := by
  have calmHere : AreCalm (begun.kept ++ [token] ++ rest) := by
    rwa [← List.append_cons]
  cases step with
  | comment position text =>
      refine ⟨.nothing, calmHere.right, ?_⟩
      rw [List.forall_mem_singleton]
      exact restored_comment calm
  | skip => exact ⟨.nothing, calmHere.right, List.forall_mem_nil _⟩
  | start notComment notSkipped notCurly =>
      obtain ⟨sound, calm⟩ := sound_begins calm notCurly notSkipped notComment
      exact ⟨sound, calm, List.forall_mem_nil _⟩
  | finish ends => exact ⟨.nothing, calmHere.right, ends.restored sound calm.left⟩
  | goOn takes =>
      rw [Begun.kept_push takes]
      exact ⟨sound.push takes, calmHere, List.forall_mem_nil _⟩

/-- The block that a token is, is read again if its content is. -/
theorem Heads.restored {begun : Begun} {head : Head} {inner : ListKind} {children : List Node}
    (heads : Heads kind begun head inner) (sound : begun.IsSound kind) (calm : AreCalm begun.kept)
    (restored : ∀ node ∈ children, Restored inner source node) :
    Restored kind source (.block source head false children) := by
  cases heads with
  | nameless isKind => exact restored_emptyRule isKind restored
  | atRule name prelude =>
      cases sound with
      | atRule isIdent takes =>
          exact restored_atRuleBlock isIdent calm
            (fun token member => takes token (List.mem_reverse.mp member)) restored
  | rule last prelude =>
      cases sound with
      | rule starts noCurly =>
          rw [Begun.kept, List.reverse_append, List.reverse_singleton, List.singleton_append] at calm
          rw [List.reverse_append, List.reverse_singleton, List.singleton_append]
          exact restored_rule starts calm
            (fun token member => noCurly token (List.mem_reverse.mp member)) restored

/-- What is read from calm tokens is read again from what is written for it. -/
theorem Reads.restored {begun : Begun} {tokens : List Token} {nodes : List Node}
    (reads : Reads source kind begun tokens nodes) (sound : begun.IsSound kind)
    (calm : AreCalm (begun.kept ++ tokens)) : ∀ node ∈ nodes, Restored kind source node := by
  induction reads with
  | ended ends => exact ends.restored sound calm.left
  | block position heads _ _ ofContent ofRest =>
      rw [List.append_cons] at calm
      rw [List.forall_mem_cons]
      exact ⟨heads.restored sound calm.left.left (ofContent .nothing calm.left.right.content),
        ofRest .nothing calm.right⟩
  | token step _ ofRest =>
      obtain ⟨sound, calm, restored⟩ := step.sound sound calm
      rw [List.forall_mem_append]
      exact ⟨restored, ofRest sound calm⟩

end ContainerPreview
