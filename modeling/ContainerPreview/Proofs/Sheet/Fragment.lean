import ContainerPreview.Proofs.Css.Named
import ContainerPreview.Proofs.Sheet.Value

/-!
# Fragments of a written sheet

The texts that entries are put together from are cut into known signs, whatever follows them:
names, single characters, blanks, and the text of tokens with blanks around it.
-/

namespace ContainerPreview

open Css Text

/-! ## Texts that are cut into given signs -/

/-- What follows a sign does not go on with it if it begins with a character that no sign goes on
with. -/
theorem Css.Sign.endsBefore_of_isStop {sign : Sign} (notBlank : ∀ text, sign ≠ .lexeme (.blank text))
    (notQuoted : sign.needsQuote = false) {new : List Char} (stops : ∀ c ∈ new.head?, isStop c) :
    sign.EndsBefore new where
  noBar := fun bar member meets => by
    have follows : Follows new [] := .stop stops
    obtain ⟨c, rest, isNil, -⟩ :=
      follows.meets (Sign.isFair_of_mem_bars notBlank bar member) meets
    cases isNil' : bar.marks <;> rw [isNil'] at isNil <;> cases isNil
  quoted := by simp [notQuoted]

theorem isTidy_of_isInName {c : Char} (inName : isInName c) : isTidy c := by
  by_cases ascii : c.toNat < 128
  · exact forall_ascii (fun c => isInName c → isTidy c) (by decide) ascii inName
  · have notAscii : ∀ d : Char, d.toNat < 128 → c ≠ d := fun d isAscii same => ascii (same ▸ isAscii)
    simp [isTidy, notAscii]

theorem Css.IsIdent.tidy {name : List Char} (isIdent : IsIdent name) : name.all isTidy :=
  List.all_eq_true.mpr fun c member =>
    isTidy_of_isInName (List.all_eq_true.mp isIdent.areInName c member)

theorem noLooseBackslash_nil : NoLooseBackslash [] :=
  ⟨nofun, nofun⟩

section Signs

variable {name new : List Char}

theorem signsOf_ident (isIdent : IsIdent name) (stops : ∀ c ∈ new.head?, isStop c) :
    signsOf (name ++ new) = .lexeme (.ident name) :: signsOf new := by
  have recut : Recut (name ++ []) (.lexeme (.ident name)) [] :=
    recut_ident (by simpa using isIdent.tidy) isIdent rfl noLooseBackslash_nil nofun
      (fun _ meets => by simp [Bar.Meets] at meets) (fun _ meets => by simp [Bar.Meets] at meets)
  have cut := recut.cuts new (Sign.endsBefore_of_isStop (by simp) rfl stops)
  have isText : (Sign.lexeme (.ident name)).write = name := isIdent.isWritten
  rw [isText] at cut
  exact cut.signsOf

theorem signsOf_atKeyword (isIdent : IsIdent name) (stops : ∀ c ∈ new.head?, isStop c) :
    signsOf ('@' :: name ++ new) = .lexeme (.atKeyword name) :: signsOf new := by
  have areTidy : ('@' :: name ++ []).all isTidy := by
    rw [List.append_nil, List.all_cons, isIdent.tidy]
    rfl
  have recut := recut_atKeyword areTidy noLooseBackslash_nil isIdent rfl
  have cut := recut.cuts new (Sign.endsBefore_of_isStop (by simp) rfl stops)
  have isText : (Sign.lexeme (.atKeyword name)).write = '@' :: name :=
    congrArg ('@' :: ·) isIdent.isWritten
  rw [isText] at cut
  exact cut.signsOf

/-- A character that is always cut by itself. -/
theorem signsOf_single {c : Char} {sign : Sign} (cut : signsAt c new = ([sign], 1)) :
    signsOf (c :: new) = sign :: signsOf new :=
  Cuts.signsOf ⟨c, [], rfl, cut⟩

theorem signsOf_blanks {text : List Char} (areGaps : text.all isGap)
    (notGap : ∀ c ∈ new.head?, isGap c = false) :
    signsOf (text ++ new) = signsIn (blanks text) ++ signsOf new := by
  cases text with
  | nil => rfl
  | cons c text =>
      have cut : Cuts (c :: text) (.lexeme (.blank (c :: text))) new := by
        have gap := areGaps
        rw [List.all_cons, Bool.and_eq_true] at gap
        have isLength := gapLength_append areGaps notGap
        refine ⟨c, text, rfl, ?_⟩
        rw [List.cons_append] at isLength
        rw [signsAt_blank gap.1, isLength, oneLexeme, ← List.cons_append, List.take_left]
      exact cut.signsOf

end Signs

/-! ## Written tokens around which blanks stand -/

mutual
theorem spaced_spaced : ∀ token : Token, token.spaced.spaced = token.spaced
  | .single _ _ => rfl
  | .group _ _ content => by rw [Token.spaced, Token.spaced, spacedIn_spacedIn content]
/-- Tokens that do not run together are not spaced again. -/
theorem spacedIn_spacedIn : ∀ tokens : List Token, spacedIn (spacedIn tokens) = spacedIn tokens
  | [] => rfl
  | token :: tokens => by
      have later := spacedIn_spacedIn tokens
      have sameJoint : ∀ token : Token, joint token.spaced = joint token := fun token => by
        cases token with
        | single => rfl
        | group position opener content => cases opener <;> rfl
      rw [spacedIn, spacedIn, spaced_spaced token]
      cases tokens with
      | nil => rfl
      | cons next tokens =>
          rw [commentBetween]
          split
          · rename_i runs
            have apart : ∀ token : Token,
                commentBetween token (.single .start (.comment []) :: spacedIn (next :: tokens)) = [] :=
              fun token => by simp [commentBetween, runsTogether, joint, Token.kind, nameOrNumber]
            have free :
                commentBetween (.single .start (.comment [])) (spacedIn (next :: tokens)) = [] := by
              simp [spacedIn, commentBetween, runsTogether, joint, Token.kind]
            rw [List.singleton_append, apart, spacedIn, free, later]
            rfl
          · rename_i apart
            rw [List.nil_append, later]
            have none : commentBetween token.spaced (spacedIn (next :: tokens)) = [] := by
              rw [spacedIn, commentBetween, sameJoint, sameJoint, if_neg apart]
            rw [none]
            rfl
end

theorem mem_of_mem_separated {sign : Sign} {signs : List Sign} (member : sign ∈ separated signs) :
    sign ∈ signs ∨ sign = .lexeme (.comment []) := by
  induction signs with
  | nil => cases member
  | cons first signs inductionHypothesis =>
      rw [separated, List.mem_cons, List.mem_append] at member
      rcases member with rfl | member | member
      · exact .inl List.mem_cons_self
      · rcases separator_cases first signs with none | comment
        · rw [none] at member
          cases member
        · rw [comment] at member
          exact .inr (List.mem_singleton.mp member)
      · exact (inductionHypothesis member).imp_left (List.mem_cons_of_mem first)

theorem flawlessIn_blanks (text : List Char) : flawlessIn (blanks text) := by
  rw [blanks]
  split <;> rfl

theorem writeSigns_blanks (text : List Char) : writeSigns (signsIn (blanks text)) = text := by
  cases text with
  | nil => rfl
  | cons c text => exact List.append_nil _

section Padding

variable {tokens padded : List Token}

theorem Padded.flawless (isPadded : Padded tokens padded) (calm : AreCalm tokens) :
    flawlessIn padded := by
  obtain ⟨left, right⟩ := isPadded
  rw [flawlessIn_append, flawlessIn_append, flawlessIn_blanks, flawlessIn_blanks,
    flawlessIn_spacedIn, calm.core.flawless]
  rfl

theorem writeTokens_padded (calm : AreCalm tokens) (left right : List Char) :
    writeTokens (blanks left ++ spacedIn (coreOf tokens) ++ blanks right) =
      left ++ writeTokens (coreOf tokens) ++ right := by
  have noBackslash : ∀ text, Sign.lexeme (.literal ['\\']) ∉ signsIn (blanks text) := by
    intro text member
    rw [blanks] at member
    split at member
    · cases member
    · rcases List.mem_singleton.mp member with ⟨⟩
  have flawless : flawlessIn (blanks left ++ spacedIn (coreOf tokens) ++ blanks right) := by
    rw [flawlessIn_append, flawlessIn_append, flawlessIn_blanks, flawlessIn_blanks,
      flawlessIn_spacedIn, calm.core.flawless]
    rfl
  have notBackslash : .lexeme (.literal ['\\']) ∉
      signsIn (blanks left ++ spacedIn (coreOf tokens) ++ blanks right) := by
    rw [signsIn_append, signsIn_append, List.mem_append, List.mem_append, not_or, not_or,
      signsIn_spacedIn calm.core.flawless]
    refine ⟨⟨noBackslash left, fun member => ?_⟩, noBackslash right⟩
    rcases mem_of_mem_separated member with inside | isComment
    · exact calm.core.notBackslash inside
    · cases isComment
  rw [writeTokens, writeAfter_eq flawless notBackslash,
    spacedIn_append_gaps _ fun _ => isGap_of_mem_blanks,
    spacedIn_gaps_append fun _ => isGap_of_mem_blanks, spacedIn_spacedIn, signsIn_append,
    signsIn_append, writeSigns_append, writeSigns_append, writeSigns_blanks, writeSigns_blanks,
    calm.core.writeTokens_eq, signsIn_spacedIn calm.core.flawless]

theorem isTrimmed_core (calm : AreCalm tokens) : IsTrimmed (writeTokens (coreOf tokens)) := by
  rw [← calm.trim_writeTokens]
  exact isTrimmed_trim _

/-- The text of tokens is the same with blanks around them. -/
theorem textOf_padded (calm : AreCalm tokens) (isPadded : Padded tokens padded) :
    textOf padded = textOf tokens := by
  obtain ⟨left, right, leftGaps, rightGaps⟩ := isPadded
  have areBlank : ∀ {text : List Char}, text.all isGap → ∀ c ∈ text, isBlank c :=
    fun areGaps c member => isBlank_of_isGap (List.all_eq_true.mp areGaps c member)
  rw [textOf, textOf, writeTokens_padded calm, calm.trim_writeTokens,
    trim_between (areBlank leftGaps) (isTrimmed_core calm) (areBlank rightGaps)]

theorem toList_textOf (calm : AreCalm tokens) :
    (textOf tokens).toList = writeTokens (coreOf tokens) := by
  rw [textOf, String.toList_ofList, calm.trim_writeTokens]

end Padding

end ContainerPreview
