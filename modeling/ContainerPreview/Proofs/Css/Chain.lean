import ContainerPreview.Proofs.Css.RecutSign
import ContainerPreview.Proofs.Text.Squeeze

/-!
# Cutting a text of calm signs again

Some signs of a text, one after the other, are written with empty comments between those that
would run together.  What is written is cut into the same signs and comments: the induction is
on the signs, and carries along that what is written follows the text that they were cut from.
-/

namespace ContainerPreview.Css

open Text

/-! ## Texts that are cut into calm signs -/

/-- The text is cut into the signs, all of which are calm.  The brackets that are missing at its
end count as cut. -/
inductive CutInto : List Char → List Sign → Prop where
  | ended (openers : List Opener) :
      CutInto [] (openers.map fun opener => .closing opener.closer)
  | cut {taken rest : List Char} {sign : Sign} {signs : List Sign} (cut : Cuts taken sign rest)
      (calm : sign.isCalm taken rest) (later : CutInto rest signs) :
      CutInto (taken ++ rest) (sign :: signs)

/-- Every cut from the text takes one calm sign, and no more than there is. -/
def calmFrom (text : List Char) : Bool :=
  match text with
  | [] => true
  | c :: rest =>
      let taken := rest.take ((signsAt c rest).2 - 1)
      let after := rest.drop ((signsAt c rest).2 - 1)
      (match (signsAt c rest).1 with
        | [sign] => (signsAt c rest).2 == taken.length + 1 && sign.isCalm (c :: taken) after
        | _ => false) && calmFrom after
termination_by text.length
decreasing_by
  simp only [List.length_drop, List.length_cons]
  omega

theorem cutInto_of_calmFrom {text : List Char} (calm : calmFrom text) (openers : List Opener) :
    CutInto text (signsOf text ++ openers.map fun opener => .closing opener.closer) := by
  fun_induction calmFrom text with
  | case1 =>
      rw [signsOf_nil]
      exact .ended openers
  | case2 c rest taken after inductionHypothesis =>
      rw [Bool.and_eq_true] at calm
      obtain ⟨calmHere, calmLater⟩ := calm
      split at calmHere
      · rename_i sign isSign
        rw [Bool.and_eq_true, beq_iff_eq] at calmHere
        have isText : c :: rest = (c :: taken) ++ after := by
          rw [List.cons_append, List.take_append_drop]
        have cut : Cuts (c :: taken) sign after := by
          refine ⟨c, taken, rfl, ?_⟩
          rw [List.take_append_drop]
          exact Prod.ext isSign calmHere.1
        rw [isText, cut.signsOf]
        exact .cut cut calmHere.2 (inductionHypothesis calmLater)
      · cases calmHere

/-- A sign that may hold a backslash begins with neither a backslash nor a hyphen. -/
theorem Cuts.head_of_isExempt {c : Char} {more rest : List Char} {sign : Sign}
    (cut : Cuts (c :: more) sign rest) (exempt : sign.isExempt) : c ≠ '\\' ∧ c ≠ '-' := by
  obtain ⟨_, _, same, isCut⟩ := cut
  obtain ⟨rfl, rfl⟩ := List.cons.inj same
  have kind := cutCase c (more ++ rest)
  rw [isCut] at kind
  have notOrdinary : ∀ {signs : List Sign × Nat}, (∀ sign ∈ signs.1, sign.isOrdinary) →
      ([sign], (c :: more).length) = signs → c ≠ '\\' ∧ c ≠ '-' := fun ordinary isSigns => by
    rw [Sign.notExempt_of_isOrdinary
      (ordinary sign (by rw [← isSigns]; exact List.mem_singleton_self _))] at exempt
    cases exempt
  generalize isResult : ([sign], (c :: more).length) = result at kind
  cases kind with
  | blank gap => constructor <;> (rintro rfl; cases gap)
  | range range => constructor <;> (rintro rfl; cases range)
  | arrow arrow =>
      obtain rfl := List.singleton_inj.mp (Prod.mk.inj isResult).1
      cases exempt
  | ident => exact notOrdinary (isOrdinary_identSigns _) isResult
  | number => exact notOrdinary (isOrdinary_numberSign _ _) isResult
  | marked => exact notOrdinary (isOrdinary_markedName _ _) isResult
  | opening opener isBracket =>
      obtain rfl := List.singleton_inj.mp (Prod.mk.inj isResult).1
      cases exempt
  | closing isCloser => rcases isCloser with rfl | rfl | rfl <;> decide
  | string isQuote => rcases isQuote with rfl | rfl <;> decide
  | short notIdent notNumber notSpecial =>
      rcases isOrdinary_shortSign c (more ++ rest) sign
        (by rw [← isResult]; exact List.mem_singleton_self _) with ordinary | ⟨rfl, -⟩
      · rw [Sign.notExempt_of_isOrdinary ordinary] at exempt
        cases exempt
      · decide

theorem CutInto.notBackslash_head {text : List Char} {signs : List Sign}
    (cutInto : CutInto text signs) (after : List Char) : text ≠ '\\' :: after := by
  intro isText
  cases cutInto with
  | ended => cases isText
  | @cut taken rest sign signs cut calm later =>
      obtain ⟨c, more, rfl, -⟩ := id cut
      obtain rfl : c = '\\' := (List.cons.inj isText).1
      cases exempt : sign.isExempt with
      | true => exact (cut.head_of_isExempt exempt).1 rfl
      | false => exact Sign.noEscape_of_isCalm calm exempt List.mem_cons_self

theorem CutInto.noLooseBackslash {text : List Char} {signs : List Sign}
    (cutInto : CutInto text signs) : NoLooseBackslash text := by
  refine ⟨fun rest => cutInto.notBackslash_head ('\n' :: rest), fun after isText => ?_⟩
  cases cutInto with
  | ended => cases isText
  | @cut taken rest sign signs cut calm later =>
      obtain ⟨c, more, rfl, -⟩ := id cut
      obtain ⟨rfl, isRest⟩ := List.cons.inj isText
      cases more with
      | nil => exact later.notBackslash_head _ isRest
      | cons d more =>
          obtain rfl : d = '\\' := (List.cons.inj isRest).1
          cases exempt : sign.isExempt with
          | true => exact (cut.head_of_isExempt exempt).2 rfl
          | false =>
              exact Sign.noEscape_of_isCalm calm exempt
                (List.mem_cons_of_mem _ List.mem_cons_self)

theorem isStop_closer (opener : Opener) : isStop opener.closer := by
  cases opener <;> rfl

theorem isCloser_closer (opener : Opener) :
    opener.closer = '\x7d' ∨ opener.closer = ']' ∨ opener.closer = ')' := by
  cases opener <;> simp [Opener.closer]

/-- The first sign is cut off the text, or the text is over and the sign closes what is open. -/
theorem CutInto.of_cons {text : List Char} {sign : Sign} {signs : List Sign}
    (cutInto : CutInto text (sign :: signs)) :
    (∃ (opener : Opener) (openers : List Opener), text = [] ∧ sign = .closing opener.closer ∧
        signs = openers.map fun opener => .closing opener.closer) ∨
      ∃ taken rest, text = taken ++ rest ∧ Cuts taken sign rest ∧ sign.isCalm taken rest ∧
        CutInto rest signs := by
  generalize isSigns : sign :: signs = all at cutInto
  cases cutInto with
  | ended openers =>
      cases openers with
      | nil => cases isSigns
      | cons opener openers =>
          obtain ⟨rfl, rfl⟩ := List.cons.inj isSigns
          exact .inl ⟨opener, openers, rfl, rfl, rfl⟩
  | @cut taken rest _ _ cut calm later =>
      obtain ⟨rfl, rfl⟩ := List.cons.inj isSigns
      exact .inr ⟨taken, rest, rfl, cut, calm, later⟩

/-- What is no closing bracket is cut off the text. -/
theorem CutInto.of_lexeme {text : List Char} {content : Lexeme} {signs : List Sign}
    (cutInto : CutInto text (.lexeme content :: signs)) :
    ∃ taken rest, text = taken ++ rest ∧ Cuts taken (.lexeme content) rest ∧
      (Sign.lexeme content).isCalm taken rest ∧ CutInto rest signs := by
  rcases cutInto.of_cons with ⟨_, _, -, isClosing, -⟩ | isCut
  · cases isClosing
  · exact isCut

/-- What a text is cut into can be cut again. -/
theorem CutInto.exists_recut {text : List Char} {sign : Sign} {signs : List Sign}
    (cutInto : CutInto text (sign :: signs)) (areTidy : text.all isTidy) :
    ∃ rest, Recut text sign rest ∧ CutInto rest signs ∧ rest.all isTidy := by
  rcases cutInto.of_cons with ⟨opener, openers, rfl, rfl, rfl⟩ | ⟨taken, rest, rfl, cut, calm, later⟩
  · refine ⟨[], ⟨endsBefore_of_noBars rfl rfl [], fun rest' _ => ?_, fun new _ => ?_, ?_,
      fun _ present => absurd rfl present⟩, .ended openers, rfl⟩
    · exact ⟨opener.closer, [], rfl, signsAt_closing (isCloser_closer opener) rest'⟩
    · exact .of_isStop (isStop_closer opener) new []
    · cases opener <;> rfl
  · refine ⟨rest, recut_of_cuts areTidy later.noLooseBackslash cut calm, later, ?_⟩
    rw [List.all_append, Bool.and_eq_true] at areTidy
    exact areTidy.2

/-! ## Signs next to each other -/

/-- What a sign is for the rule on tokens that run together. -/
def Sign.joint : Sign → String
  | .lexeme content => Css.joint (.single .start content)
  | .opening opener => Css.joint (.group .start opener [])
  | .closing _ => ""

/-- What stands between a sign and those after it: an empty comment if they would run together. -/
def separator (sign : Sign) : List Sign → List Sign
  | [] => []
  | next :: _ => if runsTogether sign.joint next.joint then [.lexeme (.comment [])] else []

/-- Signs with what stands between them. -/
def separated : List Sign → List Sign
  | [] => []
  | sign :: signs => sign :: (separator sign signs ++ separated signs)

/-- The text of signs one after the other. -/
def writeSigns (signs : List Sign) : List Char :=
  signs.flatMap Sign.write

/-- A sign that a list of tokens can end in, if blanks are left out there. -/
def Sign.isEnding : Sign → Bool
  | .lexeme (.blank _) | .opening _ => false
  | _ => true

theorem writeSigns_append (left right : List Sign) :
    writeSigns (left ++ right) = writeSigns left ++ writeSigns right :=
  List.flatMap_append

theorem writeSigns_cons (sign : Sign) (signs : List Sign) :
    writeSigns (sign :: signs) = sign.write ++ writeSigns signs :=
  List.flatMap_cons

/-- Nothing stands after blanks or after an opening. -/
theorem separator_eq_nil {sign : Sign} (notEnding : sign.isEnding = false) (signs : List Sign) :
    separator sign signs = [] := by
  have ofJoint : ∀ right, runsTogether sign.joint right = false := fun right => by
    cases sign with
    | lexeme content =>
        cases content with
        | blank => simp [runsTogether, Sign.joint, joint, Token.kind]
        | _ => cases notEnding
    | opening opener => cases opener <;> simp [runsTogether, Sign.joint, joint, Token.kind]
    | closing => cases notEnding
  cases signs with
  | nil => rfl
  | cons next signs => rw [separator, ofJoint, if_neg (by simp)]

/-- A sign is made of blanks if and only if its text begins with one. -/
theorem Cuts.isGap_iff {c : Char} {more rest : List Char} {sign : Sign}
    (cut : Cuts (c :: more) sign rest) : isGap c ↔ ∃ text, sign = .lexeme (.blank text) := by
  obtain ⟨_, _, same, isCut⟩ := cut
  obtain ⟨rfl, rfl⟩ := List.cons.inj same
  constructor
  · intro gap
    rw [signsAt_blank gap] at isCut
    exact ⟨_, (List.singleton_inj.mp (Prod.mk.inj isCut).1).symm⟩
  · rintro ⟨text, rfl⟩
    have kind := cutCase c (more ++ rest)
    rw [isCut] at kind
    have notOrdinary : ∀ {signs : List Sign × Nat}, (∀ sign ∈ signs.1, sign.isOrdinary) →
        ([.lexeme (.blank text)], (c :: more).length) = signs → isGap c :=
      fun ordinary isSigns => by
        cases ordinary (.lexeme (.blank text))
          (by rw [← isSigns]; exact List.mem_singleton_self _)
    generalize isResult : ([Sign.lexeme (.blank text)], (c :: more).length) = result at kind
    cases kind with
    | blank gap => exact gap
    | ident => exact notOrdinary (isOrdinary_identSigns _) isResult
    | number => exact notOrdinary (isOrdinary_numberSign _ _) isResult
    | marked => exact notOrdinary (isOrdinary_markedName _ _) isResult
    | string =>
        simp only [stringSigns] at isResult
        split at isResult <;> cases (Prod.mk.inj isResult).1
    | short =>
        rcases isOrdinary_shortSign c (more ++ rest) (.lexeme (.blank text))
          (by rw [← isResult]; exact List.mem_singleton_self _) with ordinary | ⟨-, _, isComment⟩
        · cases ordinary
        · cases isComment
    | _ => cases (Prod.mk.inj isResult).1

theorem Cuts.exists_string {c : Char} {more rest : List Char} {sign : Sign}
    (cut : Cuts (c :: more) sign rest) (calm : sign.isCalm (c :: more) rest)
    (isQuote : c = '"' ∨ c = '\'') : ∃ value, sign = .lexeme (.string value true) := by
  obtain ⟨_, _, same, isCut⟩ := cut
  obtain ⟨rfl, rfl⟩ := List.cons.inj same
  have isString : signsAt c (more ++ rest) = stringSigns c (more ++ rest) := by
    rcases isQuote with rfl | rfl <;> rfl
  rw [isString] at isCut
  simp only [stringSigns] at isCut
  split at isCut
  · exact ⟨_, (List.singleton_inj.mp (Prod.mk.inj isCut).1).symm⟩
  · cases (Prod.mk.inj isCut).1
  · obtain rfl := List.singleton_inj.mp (Prod.mk.inj isCut).1
    cases calm

theorem cuts_emptyComment (rest : List Char) :
    Cuts (Sign.lexeme (.comment [])).write (.lexeme (.comment [])) rest :=
  ⟨'/', ['*', '*', '/'], rfl, rfl⟩

/-- What is written for some signs begins with a quote if the text that they were cut from does,
maybe after blanks. -/
theorem CutInto.startsQuoted {text : List Char} {middle back : List Sign}
    (cutInto : CutInto text (middle ++ back))
    (quoted : Css.startsQuoted text)
    (ending : ∀ sign ∈ middle.getLast?, sign.isEnding) (nonempty : middle ≠ []) (new : List Char) :
    startsQuoted (writeSigns (separated middle) ++ new) := by
  have ofString : ∀ {text : List Char} {sign : Sign} {signs : List Sign},
      CutInto text (sign :: signs) → (text.head?.any fun c => c == '"' || c == '\'') →
        ∃ value, sign = .lexeme (.string value true) := fun {text sign signs} cutInto isQuote => by
    rcases cutInto.of_cons with ⟨_, _, rfl, -⟩ | ⟨taken, rest, rfl, cut, calm, -⟩
    · cases isQuote
    · obtain ⟨c, more, rfl, -⟩ := id cut
      exact cut.exists_string calm (by simpa using isQuote)
  obtain ⟨sign, middle, rfl⟩ := List.exists_cons_of_ne_nil nonempty
  have isNext : ∀ (front : List Char) {text : List Char} {sign : Sign} {middle back : List Sign},
      front.all isGap → (text.head?.any fun c => c == '"' || c == '\'') →
        CutInto text (sign :: middle ++ back) →
          Css.startsQuoted (front ++ (writeSigns (separated (sign :: middle)) ++ new)) := by
    intro front text sign middle back areGaps isQuote cutInto
    obtain ⟨value, rfl⟩ := ofString cutInto isQuote
    have isText : ∃ more, writeSigns (separated (.lexeme (.string value true) :: middle)) ++ new =
        '"' :: more := ⟨_, rfl⟩
    obtain ⟨more, isText⟩ := isText
    rw [isText, Css.startsQuoted, gapLength_append areGaps (by rintro _ ⟨⟩; rfl), List.drop_left]
    rfl
  rcases cutInto.of_cons with ⟨_, _, rfl, -⟩ | ⟨taken, rest, rfl, cut, -, later⟩
  · cases quoted
  · obtain ⟨c, more, rfl, isCut⟩ := id cut
    cases gap : isGap c with
    | false =>
        rw [Css.startsQuoted, List.cons_append, gapLength_eq_zero gap] at quoted
        exact isNext [] rfl quoted cutInto
    | true =>
        rw [signsAt_blank gap] at isCut
        obtain ⟨isSign, isLength⟩ := Prod.mk.inj isCut
        rw [← List.cons_append] at isSign isLength
        obtain ⟨areGaps, -⟩ := areGaps_of_gapLength _ isLength
        rw [isLength, List.take_left] at isSign
        obtain rfl := List.singleton_inj.mp isSign
        rw [Css.startsQuoted, isLength, List.drop_left] at quoted
        cases middle with
        | nil => cases ending _ rfl
        | cons next middle =>
            have written : writeSigns (separated (.lexeme (.blank (c :: more)) :: next :: middle)) =
                (c :: more) ++ writeSigns (separated (next :: middle)) := by
              rw [separated, separator_eq_nil rfl, List.nil_append, writeSigns_cons]
              rfl
            rw [written, List.append_assoc]
            exact isNext _ areGaps quoted later

theorem separator_cases (sign : Sign) (signs : List Sign) :
    separator sign signs = [] ∨ separator sign signs = [.lexeme (.comment [])] := by
  cases signs with
  | nil => exact .inl rfl
  | cons next signs =>
      rw [separator]
      split
      · exact .inr rfl
      · exact .inl rfl

/-- What is written after blanks does not begin with another one. -/
theorem CutInto.notGap_write {text : List Char} {sign : Sign} {middle back : List Sign}
    (cutInto : CutInto text (sign :: middle ++ back)) (areTidy : text.all isTidy)
    (notGap : ¬text.head?.any isGap) (new : List Char) :
    ¬(writeSigns (separated (sign :: middle)) ++ new).head?.any isGap := by
  obtain ⟨rest, recut, -⟩ := cutInto.exists_recut areTidy
  have cut := recut.cuts rest recut.ends
  obtain ⟨c, more, isText, -⟩ := id cut
  intro gap
  rw [separated, writeSigns_cons, isText] at gap
  rw [isText] at cut
  obtain ⟨blank, rfl⟩ := cut.isGap_iff.mp gap
  obtain ⟨taken, rest, rfl, cut, -⟩ := cutInto.of_lexeme
  obtain ⟨c, more, rfl, -⟩ := id cut
  exact notGap (cut.isGap_iff.mpr ⟨blank, rfl⟩)

/-- What is written for some of the signs that a text is cut into is cut into those signs, with
empty comments between them where they would run together. -/
theorem CutInto.signsOf_write {text : List Char} {middle back : List Sign}
    (cutInto : CutInto text (middle ++ back)) (areTidy : text.all isTidy)
    (ending : ∀ sign ∈ middle.getLast?, sign.isEnding) {new : List Char}
    (stops : ∀ c ∈ new.head?, isStop c) :
    signsOf (writeSigns (separated middle) ++ new) = separated middle ++ signsOf new ∧
      Follows (writeSigns (separated middle) ++ new) text := by
  induction middle generalizing text with
  | nil => exact ⟨rfl, .stop stops⟩
  | cons sign middle inductionHypothesis =>
      obtain ⟨rest, recut, later, restTidy⟩ := cutInto.exists_recut areTidy
      have endingLater : ∀ sign ∈ middle.getLast?, sign.isEnding := fun last isLast => by
        refine ending last ?_
        rw [List.getLast?_cons, isLast]
        rfl
      obtain ⟨isRest, follows⟩ := inductionHypothesis later restTidy endingLater
      generalize isNew : writeSigns (separator sign middle) ++
        (writeSigns (separated middle) ++ new) = after
      have afterFollows : Follows after rest := by
        rw [← isNew]
        rcases separator_cases sign middle with none | comment
        · rw [none]
          exact follows
        · rw [comment]
          exact .of_isStop rfl _ _
      have afterSigns : signsOf after = separator sign middle ++ (separated middle ++ signsOf new) := by
        rw [← isNew]
        rcases separator_cases sign middle with none | comment
        · rw [none]
          exact isRest
        · rw [comment, writeSigns_cons, List.append_assoc, (cuts_emptyComment _).signsOf,
            ← isRest]
          rfl
      have isDirect : sign.isEnding = false → middle ≠ [] ∧
          after = writeSigns (separated middle) ++ new := fun notEnding => by
        refine ⟨?_, ?_⟩
        · rintro rfl
          rw [ending sign rfl] at notEnding
          cases notEnding
        · rw [← isNew, separator_eq_nil notEnding]
          rfl
      have ends : sign.EndsBefore after := by
        by_cases blank : ∃ text, sign = .lexeme (.blank text)
        · obtain ⟨blank, rfl⟩ := blank
          obtain ⟨nonempty, rfl⟩ := isDirect rfl
          obtain ⟨next, middle, rfl⟩ := List.exists_cons_of_ne_nil nonempty
          have notGap := recut.ends.noBar _ List.mem_cons_self
          rw [Bar.meets_nil] at notGap
          refine ⟨?_, nofun⟩
          simp only [Sign.bars, List.forall_mem_singleton, Bar.meets_nil]
          exact later.notGap_write restTidy notGap new
        · refine ⟨fun bar member meets => recut.ends.noBar bar member ?_, fun needs => ?_⟩
          · exact afterFollows.meets
              (Sign.isFair_of_mem_bars (fun text isBlank => blank ⟨text, isBlank⟩) bar member) meets
          · have notEnding : sign.isEnding = false := by
              cases sign with
              | opening => rfl
              | _ => cases needs
            obtain ⟨nonempty, rfl⟩ := isDirect notEnding
            exact later.startsQuoted (recut.ends.quoted needs) endingLater nonempty new
      have isText : writeSigns (separated (sign :: middle)) ++ new = sign.write ++ after := by
        rw [separated, writeSigns_cons, writeSigns_append, ← isNew]
        simp
      rw [isText, (recut.cuts after ends).signsOf, afterSigns, separated]
      exact ⟨by simp, recut.follows after afterFollows⟩

/-- What is written is a text whose line ends are uniform. -/
theorem CutInto.tidy_write {text : List Char} {middle back : List Sign}
    (cutInto : CutInto text (middle ++ back)) (areTidy : text.all isTidy) :
    (writeSigns (separated middle)).all isTidy := by
  induction middle generalizing text with
  | nil => rfl
  | cons sign middle inductionHypothesis =>
      obtain ⟨rest, recut, later, restTidy⟩ := cutInto.exists_recut areTidy
      rw [separated, writeSigns_cons, writeSigns_append, List.all_append, List.all_append,
        recut.tidy, inductionHypothesis later restTidy, Bool.and_true, Bool.true_and]
      rcases separator_cases sign middle with none | comment
      · rw [none]
        rfl
      · rw [comment]
        rfl

/-- No sign that a text is cut into is a backslash by itself. -/
theorem CutInto.notBackslash {text : List Char} {signs : List Sign} (cutInto : CutInto text signs)
    (areTidy : text.all isTidy) : .lexeme (.literal ['\\']) ∉ signs := by
  induction signs generalizing text with
  | nil => exact List.not_mem_nil
  | cons sign signs inductionHypothesis =>
      obtain ⟨rest, recut, later, restTidy⟩ := cutInto.exists_recut areTidy
      rw [List.mem_cons, not_or]
      refine ⟨?_, inductionHypothesis later restTidy⟩
      rintro rfl
      have refl : Follows rest rest := by
        have nothing : Follows [] [] := .stop nofun
        have whole := nothing.append rest
        rwa [List.append_nil] at whole
      have follows : Follows ('\\' :: rest) text := recut.follows rest refl
      cases follows with
      | stop stops => cases stops '\\' rfl
      | letter isLetter => cases isLetter
      | same => exact cutInto.notBackslash_head _ rfl

/-- Blanks are blanks between tokens. -/
theorem CutInto.areGaps {text blank : List Char} {signs : List Sign}
    (cutInto : CutInto text (.lexeme (.blank blank) :: signs)) : blank.all isGap := by
  obtain ⟨taken, rest, rfl, cut, -⟩ := cutInto.of_lexeme
  obtain ⟨c, more, rfl, isCut⟩ := id cut
  rw [signsAt_blank (cut.isGap_iff.mpr ⟨blank, rfl⟩)] at isCut
  obtain ⟨isSign, isLength⟩ := Prod.mk.inj isCut
  rw [← List.cons_append] at isSign isLength
  obtain ⟨areGaps, -⟩ := areGaps_of_gapLength _ isLength
  rw [isLength, List.take_left] at isSign
  obtain rfl : c :: more = blank := by simpa using isSign
  exact areGaps

/-! ## Ends of signs -/

/-- A text that begins and ends with characters that are not blank. -/
structure Solid (text : List Char) : Prop where
  nonempty : text ≠ []
  trimmed : IsTrimmed text

theorem solid_of_all {text : List Char} (nonempty : text ≠ [])
    (notBlank : ∀ c ∈ text, isBlank c = false) : Solid text where
  nonempty := nonempty
  trimmed := ⟨fun c isHead => notBlank c (List.mem_of_mem_head? isHead),
    fun c isLast => notBlank c (List.mem_of_mem_getLast? isLast)⟩

theorem solid_of_ends {c d : Char} (notBlank : isBlank c = false) (notBlank' : isBlank d = false)
    (inner : List Char) : Solid (c :: (inner ++ [d])) where
  nonempty := List.cons_ne_nil _ _
  trimmed := by
    constructor
    · rintro _ ⟨⟩
      exact notBlank
    · rw [← List.cons_append, List.getLast?_concat]
      rintro _ ⟨⟩
      exact notBlank'

theorem not_isBlank_of_isHex {c : Char} (hex : isHex c) : isBlank c = false :=
  forall_ascii (fun c => isHex c → isBlank c = false) (by decide) (toNat_of_isHex hex) hex

theorem solid_codeRange (first last : Nat) : Solid (writeCodeRange first last) := by
  obtain ⟨-, firstHex, -⟩ := hexNumber_writeHex first
  obtain ⟨-, lastHex, -⟩ := hexNumber_writeHex last
  refine solid_of_all (List.cons_ne_nil _ _) fun c member => ?_
  simp only [writeCodeRange, List.mem_cons, List.mem_append] at member
  rcases member with (rfl | rfl | member) | member
  · rfl
  · rfl
  · exact not_isBlank_of_isHex (firstHex c member)
  · split at member
    · cases member
    · rcases List.mem_cons.mp member with rfl | member
      · rfl
      · exact not_isBlank_of_isHex (lastHex c member)

theorem Sign.all_isCalmChar {sign : Sign} {taken rest : List Char} (calm : sign.isCalm taken rest)
    (verbatim : sign.isVerbatim) : taken.all isCalmChar := by
  unfold isCalm at calm
  split at calm
  · cases verbatim
  · cases verbatim
  · cases verbatim
  · cases verbatim
  · rw [Bool.and_eq_true] at calm
    exact calm.1
  · cases verbatim
  · cases calm
  · exact calm

/-- What is written for a sign other than blanks begins and ends with characters that are not
blank. -/
theorem CutInto.solid {text : List Char} {sign : Sign} {signs : List Sign}
    (cutInto : CutInto text (sign :: signs)) (areTidy : text.all isTidy)
    (notBlank : ∀ blank, sign ≠ .lexeme (.blank blank)) : Solid sign.write := by
  rcases cutInto.of_cons with ⟨opener, _, -, rfl, -⟩ | ⟨taken, rest, rfl, cut, calm, later⟩
  · refine solid_of_all (List.cons_ne_nil _ _) fun c member => ?_
    obtain rfl := List.mem_singleton.mp member
    cases opener <;> rfl
  · have nonempty : taken ≠ [] := by
      obtain ⟨c, more, rfl, -⟩ := cut
      exact List.cons_ne_nil c more
    cases verbatim : sign.isVerbatim with
    | true =>
        have same := (recut_of_cuts areTidy later.noLooseBackslash cut calm).verbatim verbatim
          (List.append_ne_nil_of_left_ne_nil nonempty rest)
        rw [List.append_cancel_right same]
        refine solid_of_all nonempty fun c member => ?_
        have isCalm := List.all_eq_true.mp (Sign.all_isCalmChar calm verbatim) c member
        rw [isCalmChar, Bool.and_eq_true, Bool.not_eq_true'] at isCalm
        exact isCalm.2
    | false =>
        cases sign with
        | lexeme content =>
            cases content with
            | blank text => exact absurd rfl (notBlank text)
            | comment text =>
                have solid : Solid ('/' :: (('*' :: (text ++ ['*'])) ++ ['/'])) :=
                  solid_of_ends rfl rfl _
                simpa [Sign.write, writeLexeme] using solid
            | string value closed =>
                obtain rfl : closed = true := calm
                exact solid_of_ends rfl rfl (value.flatMap writeStringChar)
            | address value closed =>
                obtain rfl : closed = true := (Bool.and_eq_true _ _ ▸ calm).1
                exact solid_of_ends rfl rfl ("rl(".toList ++ value.flatMap writeAddressChar)
            | codeRange first last => exact solid_codeRange first last
            | _ => cases verbatim
        | _ => cases verbatim

end ContainerPreview.Css
