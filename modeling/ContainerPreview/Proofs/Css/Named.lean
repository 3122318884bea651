import ContainerPreview.Proofs.Css.Excerpt

/-!
# Names in a calm text

The names of at-rules and of properties are kept without their escapes and in lower case.  In a
calm text they have no escapes, and the name in lower case is one that can be read again.
-/

namespace ContainerPreview.Css

open Text

/-! ## Names in a calm text -/

/-- The name of an identifier or of an at-rule. -/
def Sign.name? : Sign → Option (List Char)
  | .lexeme (.ident name) | .lexeme (.atKeyword name) => some name
  | _ => none

theorem isIdent_nameAt {text : List Char} (starts : startsIdent text)
    (noEscape : '\\' ∉ text.take (nameAt text).2) : IsIdent (nameAt text).1 := by
  obtain ⟨name, rest, rfl, areInName, ends, isName⟩ := exists_name noEscape
  rw [isName]
  exact isIdent_of_startsIdent areInName ends starts

section Signs

variable {c : Char} {more rest name : List Char} {sign : Sign}

/-- A calm name without escapes is an identifier. -/
theorem isIdent_of_identSigns (starts : startsIdent (c :: (more ++ rest)))
    (isSigns : ([sign], more.length + 1) = identSigns (c :: (more ++ rest)))
    (calm : sign.isCalm (c :: more) rest) (isName : sign.name? = some name)
    (noEscape : '\\' ∉ c :: more) : IsIdent name := by
  simp only [identSigns] at isSigns
  split at isSigns
  · split at isSigns
    · obtain ⟨content, isLexeme, rfl⟩ := List.map_eq_singleton_iff.mp (Prod.mk.inj isSigns).1.symm
      obtain ⟨value, isAddress, -⟩ := exists_address _ (by
        rw [isLexeme]
        rintro flaw member
        obtain rfl := List.mem_singleton.mp member
        cases calm)
      rw [isLexeme] at isAddress
      obtain rfl := List.singleton_inj.mp isAddress
      cases isName
    · obtain rfl := List.singleton_inj.mp (Prod.mk.inj isSigns).1
      cases isName
  · obtain ⟨isSign, isLength⟩ := Prod.mk.inj isSigns
    obtain rfl := List.singleton_inj.mp isSign
    obtain rfl := Option.some.inj isName
    refine isIdent_nameAt starts ?_
    rw [← isLength, ← List.length_cons, ← List.cons_append, List.take_left]
    exact noEscape

/-- The name after a mark is an identifier if the mark is that of an at-rule. -/
theorem isIdent_of_markedName (isSigns : ([sign], more.length + 1) = markedName c (more ++ rest))
    (isName : sign.name? = some name) (noEscape : '\\' ∉ more) : IsIdent name := by
  simp only [markedName] at isSigns
  split at isSigns
  · split at isSigns
    · rename_i starts
      obtain ⟨isSign, isLength⟩ := Prod.mk.inj isSigns
      obtain rfl := List.singleton_inj.mp isSign
      obtain rfl := Option.some.inj isName
      refine isIdent_nameAt starts ?_
      rwa [← Nat.succ.inj isLength, List.take_left]
    · obtain rfl := List.singleton_inj.mp (Prod.mk.inj isSigns).1
      cases isName
  · split at isSigns <;>
      (obtain rfl := List.singleton_inj.mp (Prod.mk.inj isSigns).1; cases isName)

theorem name?_numberSign (text : List Char) (length : Nat) :
    ∀ sign ∈ (numberSign text length).1, sign.name? = none := by
  simp only [numberSign]
  split
  · simp [oneLexeme, Sign.name?]
  · split <;> simp [oneLexeme, Sign.name?]

theorem name?_stringSigns (quote : Char) (rest : List Char) :
    ∀ sign ∈ (stringSigns quote rest).1, sign.name? = none := by
  simp only [stringSigns]
  split <;> simp [oneLexeme, Sign.name?]

theorem name?_shortSign (c : Char) (rest : List Char) :
    ∀ sign ∈ (shortSign c rest).1, sign.name? = none := by
  simp only [shortSign]
  split
  · simp [oneLexeme, Sign.name?]
  · split_ifs <;> simp [literalOf, oneLexeme, Sign.name?]

end Signs

theorem Cuts.isIdent {taken rest name : List Char} {sign : Sign} (cut : Cuts taken sign rest)
    (calm : sign.isCalm taken rest) (isName : sign.name? = some name) : IsIdent name := by
  obtain ⟨c, more, rfl, isCut⟩ := cut
  have noEscape : '\\' ∉ c :: more := by
    refine Sign.noEscape_of_isCalm calm ?_
    unfold Sign.name? at isName
    split at isName
    · rfl
    · rfl
    · cases isName
  have kind := cutCase c (more ++ rest)
  rw [isCut, List.length_cons] at kind
  generalize isResult : ([sign], more.length + 1) = result at kind
  have nameless (noName : ∀ sign ∈ result.1, sign.name? = none) : IsIdent name := by
    rw [noName sign (by rw [← isResult]; exact List.mem_singleton_self _)] at isName
    cases isName
  cases kind with
  | ident notRange notArrow starts =>
      exact isIdent_of_identSigns starts isResult calm isName noEscape
  | marked isMark =>
      exact isIdent_of_markedName isResult isName fun member =>
        noEscape (List.mem_cons_of_mem c member)
  | number => exact nameless (name?_numberSign _ _)
  | string => exact nameless (name?_stringSigns _ _)
  | short => exact nameless (name?_shortSign _ _)
  | _ =>
      obtain rfl := List.singleton_inj.mp (Prod.mk.inj isResult).1
      cases isName

theorem AreCalm.isIdent {position : Position} {content : Lexeme} {tokens : List Token}
    {name : List Char} (calm : AreCalm (.single position content :: tokens))
    (isName : (Sign.lexeme content).name? = some name) : IsIdent name := by
  obtain ⟨flawless, text, back, areTidy, cutInto⟩ := calm
  have isSign : (Token.single position content).signs = [.lexeme content] := by
    cases content with
    | flaw => cases isName
    | _ => rfl
  rw [signsIn, isSign] at cutInto
  obtain ⟨taken, rest, -, cut, calm, -⟩ := cutInto.of_lexeme
  exact cut.isIdent calm isName

/-! ## Names in lower case -/

theorem name_toLower (c : Char) :
    startsName c.toLower = startsName c ∧ isInName c.toLower = isInName c ∧
      (c.toLower = '-' ↔ c = '-') := by
  by_cases ascii : c.toNat < 128
  · exact forall_ascii (fun c => startsName c.toLower = startsName c ∧
      isInName c.toLower = isInName c ∧ (c.toLower = '-' ↔ c = '-')) (by decide) ascii
  · rw [toLower_of_not_ascii ascii]
    exact ⟨rfl, rfl, Iff.rfl⟩

theorem all_isInName_lowerAscii {name : List Char} (areInName : name.all isInName) :
    (lowerAscii name).all isInName := by
  rw [lowerAscii, List.all_map, List.all_eq_true]
  intro c member
  rw [Function.comp_apply, (name_toLower c).2.1]
  exact List.all_eq_true.mp areInName c member

theorem startsIdent_lowerAscii {name : List Char} (areInName : name.all isInName) :
    startsIdent (lowerAscii name) = startsIdent name := by
  cases name with
  | nil => rfl
  | cons c more =>
      have lowerInName := all_isInName_lowerAscii areInName
      have isCons : lowerAscii (c :: more) = c.toLower :: lowerAscii more := rfl
      obtain ⟨sameStart, sameInName, sameHyphen⟩ := name_toLower c
      rw [isCons] at lowerInName ⊢
      rw [List.all_cons, Bool.and_eq_true] at areInName lowerInName
      by_cases hyphen : c = '-'
      · subst hyphen
        rw [sameHyphen.mpr rfl]
        cases more with
        | nil => rfl
        | cons d more =>
            have areInName := areInName.2
            have isCons : lowerAscii (d :: more) = d.toLower :: lowerAscii more := rfl
            obtain ⟨sameStart, sameInName, sameHyphen⟩ := name_toLower d
            rw [List.all_cons, Bool.and_eq_true] at areInName
            rw [isCons, startsIdent, startsIdent, List.head?_cons, List.head?_cons, Option.any_some,
              Option.any_some, not_startsEscape_of_isInName areInName.1,
              not_startsEscape_of_isInName (sameInName.trans areInName.1), sameStart]
            congr 2
            exact Bool.eq_iff_iff.mpr (by simpa using sameHyphen)
      · rw [startsIdent_cons hyphen, startsIdent_cons (fun same => hyphen (sameHyphen.mp same)),
          not_startsEscape_of_isInName areInName.1, not_startsEscape_of_isInName lowerInName.1,
          sameStart]

/-- A name in lower case is a name. -/
theorem IsIdent.lowerAscii {name : List Char} (isIdent : IsIdent name) :
    IsIdent (lowerAscii name) := by
  have starts := isIdent.startsIdent []
  rw [List.append_nil, ← startsIdent_lowerAscii isIdent.areInName,
    ← List.append_nil (Text.lowerAscii name)] at starts
  exact isIdent_of_startsIdent (all_isInName_lowerAscii isIdent.areInName) rfl starts

theorem lowerAscii_lowerAscii (name : List Char) : lowerAscii (lowerAscii name) = lowerAscii name := by
  rw [lowerAscii, lowerAscii, List.map_map]
  refine List.map_congr_left fun c _ => ?_
  by_cases ascii : c.toNat < 128
  · exact forall_ascii (fun c => c.toLower.toLower = c.toLower) (by decide) ascii
  · rw [Function.comp_apply, toLower_of_not_ascii ascii, toLower_of_not_ascii ascii]

end ContainerPreview.Css
