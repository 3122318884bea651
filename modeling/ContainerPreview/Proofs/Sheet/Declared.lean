import ContainerPreview.Proofs.Sheet.Entry

/-!
# Declarations that are read again

A declaration that has been read from calm tokens is written as its name, its value and the mark
of importance, and read from these as itself.
-/

namespace ContainerPreview

open Css Text

variable {source : Option String}

/-! ## Names of properties -/

theorem not_custom_lowerAscii {name : List Char} (notCustom : ∀ rest, name ≠ '-' :: '-' :: rest) :
    ∀ rest, lowerAscii name ≠ '-' :: '-' :: rest := by
  intro rest isLower
  have isHyphen : ∀ {c : Char}, c.toLower = '-' → c = '-' := fun {c} => (name_toLower c).2.2.mp
  match name with
  | [] => cases isLower
  | [c] => cases (List.cons.inj isLower).2
  | c :: d :: more =>
      obtain ⟨first, others⟩ := List.cons.inj isLower
      obtain ⟨second, -⟩ := List.cons.inj others
      exact notCustom more (by rw [isHyphen first, isHyphen second])

theorem propertyName_of_not_custom {name : List Char}
    (notCustom : ∀ rest, name ≠ '-' :: '-' :: rest) :
    propertyName name = String.ofList (lowerAscii name) := by
  unfold propertyName
  split
  · exact absurd rfl (notCustom _)
  · rfl

/-- The name of a property is a name, and that of the same property. -/
theorem isIdent_propertyName {name : List Char} (isIdent : IsIdent name) :
    IsIdent (propertyName name).toList ∧
      propertyName (propertyName name).toList = propertyName name := by
  by_cases custom : ∃ rest, name = '-' :: '-' :: rest
  · obtain ⟨rest, rfl⟩ := custom
    rw [propertyName, String.toList_ofList]
    exact ⟨isIdent, rfl⟩
  · rw [not_exists] at custom
    rw [propertyName_of_not_custom custom, String.toList_ofList,
      propertyName_of_not_custom (not_custom_lowerAscii custom), lowerAscii_lowerAscii]
    exact ⟨isIdent.lowerAscii, rfl⟩

theorem Css.IsIdent.begins {name : List Char} (isIdent : IsIdent name) : Begins name := by
  obtain ⟨c, more, rfl⟩ := List.exists_cons_of_ne_nil isIdent.nonempty
  have inName := isIdent.areInName
  rw [List.all_cons, Bool.and_eq_true] at inName
  refine ⟨c, more, rfl, Bool.eq_false_iff.mpr fun gap => ?_⟩
  simp only [isGap, Bool.or_eq_true, beq_iff_eq] at gap
  rcases gap with (rfl | rfl) | rfl <;> cases inName.1

/-! ## Declarations -/

/-- The tokens of the mark of importance. -/
def markOf (important : Bool) : List Token :=
  if important then [.single .start (.literal ['!']), .single .start (.ident "important".toList)]
  else []

/-- What stands between the value of a declaration and its mark of importance. -/
def gapOf (important : Bool) : List Char :=
  if important then [' '] else []

theorem isIdent_important : IsIdent "important".toList :=
  have starts : startsIdent ("important".toList ++ []) := by decide
  isIdent_of_startsIdent (by decide) rfl starts

/-- The mark of importance and the end of a declaration are cut into their tokens. -/
theorem signsOf_mark (important : Bool) (new : List Char) :
    signsOf ((if important then "!important;" else ";").toList ++ new) =
      signsIn (markOf important ++ [semicolon]) ++ signsOf new := by
  cases important with
  | false => exact signsOf_semicolon new
  | true =>
      have isWord : signsOf ("important".toList ++ ';' :: new) = _ :=
        signsOf_ident isIdent_important (by rintro _ ⟨⟩; rfl)
      rw [signsOf_semicolon] at isWord
      have isMark : signsOf ('!' :: ("important".toList ++ ';' :: new)) =
          .lexeme (.literal ['!']) :: signsOf ("important".toList ++ ';' :: new) :=
        signsOf_single rfl
      rw [isWord] at isMark
      exact isMark

theorem readValue_isPrefix (value : List Token) :
    (readValue [] .value false value).tokens <+: value := by
  cases important : (readValue [] .value false value).important with
  | true => exact (tokens_readValue_of_important [] .value false value trivial rfl important).1
  | false =>
      have notImportant : Importance.value.phase.after value ≠ .important := fun same => by
        rw [(readValue_phase [] .value false value).1.mpr same] at important
        cases important
      rw [tokens_readValue_of_not_important [] .value false notImportant]
      exact List.prefix_rfl

/-- What a declaration is read from. -/
theorem readDeclaration_ok {first : Token} {others : List Token} {declaration : Declaration}
    (isRead : readDeclaration first others = .ok declaration) :
    ∃ position name gaps colon value, first = .single position (.ident name) ∧
      others = gaps ++ colon :: value ∧ colon.isLiteral ":" ∧
      (readValue [] .value false value).blockFollows = false ∧
      declaration = ⟨propertyName name, textOf (readValue [] .value false value).tokens,
        (readValue [] .value false value).important⟩ := by
  cases first with
  | group => cases isRead
  | single position content =>
      cases content with
      | ident name =>
          simp only [readDeclaration] at isRead
          split at isRead
          · cases isRead
          · rename_i colon value isOthers
            split at isRead
            · rename_i isColon
              split at isRead
              · cases isRead
              · rename_i noBlock
                refine ⟨position, name, others.takeWhile Token.isInsignificant, colon, value, rfl, ?_,
                  isColon, Bool.eq_false_iff.mpr noBlock, (Except.ok.inj isRead).symm⟩
                rw [← isOthers, List.takeWhile_append_dropWhile]
            · cases isRead
      | _ => cases isRead

theorem readValue_marked {value padded : List Token} {reading : ValueReading}
    (isReading : readValue [] .value false value = reading)
    (isPadded : Padded reading.tokens padded) (noBlock : reading.blockFollows = false) :
    readValue [] .value false (padded ++ markOf reading.important) =
      { tokens := padded, important := reading.important, blockFollows := false } := by
  subst isReading
  exact readValue_padded isPadded noBlock rfl rfl

theorem readDeclaration_colon {position : Position} {name : List Char} {colon : Token}
    {value : List Token} (isColon : colon.isLiteral ":") :
    readDeclaration (.single position (.ident name)) (colon :: value) =
      if (readValue [] .value false value).blockFollows then
        .error { problem := .blockInValue, position := colon.position }
      else
        .ok ⟨propertyName name, textOf (readValue [] .value false value).tokens,
          (readValue [] .value false value).important⟩ := by
  have significant : ¬(colon.isInsignificant = true) := by
    rw [notInsignificant_of_isLiteral isColon]
    exact Bool.false_ne_true
  simp only [readDeclaration, List.dropWhile_cons_of_neg significant, if_pos isColon]

/-- A declaration is read up to its end. -/
theorem readList_declaration {name : List Char} {others : List Token} {declaration : Declaration}
    (takes : ∀ token ∈ others, (Begun.declaration (.single .start (.ident name)) []).takes token)
    (isRead : readDeclaration (.single .start (.ident name)) others = .ok declaration)
    (rest : List Token) :
    readList .declarations source .nothing
        (.single .start (.ident name) :: (others ++ semicolon :: rest)) =
      (readList .declarations source .nothing rest).map
        ([.leaf source (.declaration declaration)] ++ ·) := by
  have isBegun : readToken .declarations source .nothing (.single .start (.ident name)) =
      .ok (.declaration (.single .start (.ident name)) [], []) := rfl
  have ended : readToken .declarations source
      (.declaration (.single .start (.ident name)) others.reverse) semicolon =
        .ok (.nothing, [.leaf source (.declaration declaration)]) := by
    have isEnd : Token.isLiteral ";" semicolon = true := rfl
    rw [readToken, if_pos isEnd, endOfList, List.reverse_reverse, isRead]
    rfl
  rw [readList_token rfl isBegun, map_nil_append, readList_pushAll takes, Begun.pushAll_declaration,
    List.append_nil]
  exact readList_token rfl ended rest

/-- A declaration goes on with its value and the mark behind it. -/
theorem takes_marked {first : Token} {tokens padded : List Token} (isPadded : Padded tokens padded)
    (noEnd : ∀ token ∈ tokens, token.isLiteral ";" = false) (important : Bool) :
    ∀ token ∈ padded ++ markOf important, (Begun.declaration first []).takes token := by
  rw [List.forall_mem_append]
  constructor
  · refine isPadded.takes (by simp) fun token member => ?_
    rw [Begun.takes, noEnd token member]
    rfl
  · cases important with
    | false => exact List.forall_mem_nil _
    | true => simp [markOf, Begun.takes, Token.isLiteral]

theorem restored_declaration {first : Token} {others : List Token} {declaration : Declaration}
    (calm : AreCalm (first :: others)) (noEnd : ∀ token ∈ others, token.isLiteral ";" = false)
    (isRead : readDeclaration first others = .ok declaration) :
    Restored .declarations source (.leaf source (.declaration declaration)) := by
  obtain ⟨position, name, gaps, colon, value, rfl, rfl, isColon, noBlock, rfl⟩ :=
    readDeclaration_ok isRead
  intro depth
  obtain ⟨isIdent, sameName⟩ := isIdent_propertyName (calm.isIdent rfl)
  obtain ⟨after, isValue⟩ := readValue_isPrefix value
  have valueCalm : AreCalm (readValue [] .value false value).tokens := by
    have whole : AreCalm ([Token.single position (.ident name)] ++ gaps ++ [colon] ++ value) := by
      simpa using calm
    have valueCalm := whole.right
    rw [← isValue] at valueCalm
    exact valueCalm.left
  generalize isReading : readValue [] .value false value = reading at *
  have gapsHere : (gapOf reading.important).all Css.isGap := by
    cases reading.important <;> rfl
  obtain ⟨padded, isPadded, isCut⟩ := exists_padded valueCalm [' '] rfl gapsHere
  generalize isName : (propertyName name).toList = written at *
  refine ⟨(indentation depth).toList,
    written ++ (':' :: ([' '] ++ (writeTokens (coreOf reading.tokens) ++
      (gapOf reading.important ++ (if reading.important then "!important;" else ";").toList)))),
    .single .start (.ident written) :: .single .start (.literal [':']) ::
      (padded ++ (markOf reading.important ++ [semicolon])),
    ?_, areGaps_indentation depth, isIdent.begins.append _, ?_, ?_, fun new => ?_, fun more => ?_⟩
  · cases reading.important <;>
      simp [Node.cssAt, Leaf.css, Declaration.css, isName, toList_textOf valueCalm, gapOf]
  · have markFlawless : flawlessIn (markOf reading.important) := by
      cases reading.important <;> rfl
    simp [flawlessIn, flawlessIn_append, isPadded.flawless valueCalm, markFlawless,
      Token.isFlawless, semicolon]
  · have restTidy : (gapOf reading.important ++
        (if reading.important then "!important;" else ";").toList).all isTidy := by
      cases reading.important <;> rfl
    rw [List.all_append, isIdent.tidy, List.all_cons, List.all_append, List.all_append,
      valueCalm.core.tidy, restTidy]
    rfl
  · have isRest := isCut ((if reading.important then "!important;" else ";").toList ++ new)
      (by cases reading.important <;> (rintro _ ⟨⟩; rfl))
      (by cases reading.important <;> (rintro _ ⟨⟩; rfl))
    rw [signsOf_mark] at isRest
    have isStart : signsOf (written ++ ':' :: ([' '] ++ (writeTokens (coreOf reading.tokens) ++
        (gapOf reading.important ++
          ((if reading.important then "!important;" else ";").toList ++ new))))) = _ :=
      signsOf_ident isIdent (by rintro _ ⟨⟩; rfl)
    rw [signsOf_single (c := ':') rfl, isRest] at isStart
    simpa [signsIn, signsIn_append, Token.signs] using isStart
  · have noEndHere : ∀ token ∈ reading.tokens, token.isLiteral ";" = false := fun token member => by
      have inValue : token ∈ value := by
        rw [← isValue]
        exact List.mem_append_left after member
      exact noEnd token (List.mem_append_right gaps (List.mem_cons_of_mem colon inValue))
    have takes : ∀ token ∈ .single .start (.literal [':']) :: (padded ++ markOf reading.important),
        (Begun.declaration (.single .start (.ident written)) []).takes token :=
      List.forall_mem_cons.mpr ⟨rfl, takes_marked isPadded noEndHere reading.important⟩
    have isRead : readDeclaration (.single .start (.ident written))
        (.single .start (.literal [':']) :: (padded ++ markOf reading.important)) =
          .ok ⟨propertyName name, textOf reading.tokens, reading.important⟩ := by
      rw [readDeclaration_colon rfl, readValue_marked isReading isPadded noBlock, sameName,
        textOf_padded valueCalm isPadded]
      rfl
    simpa using readList_declaration takes isRead more

end ContainerPreview
