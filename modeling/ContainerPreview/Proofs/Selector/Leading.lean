import ContainerPreview.Proofs.Media.Words
import ContainerPreview.Proofs.Selector.Anchor
import ContainerPreview.Transform.MediaCopy

/-!
# Selectors that begin with the body

Whether a selector begins with the element `body` is told in two ways.  The anchor of a selector
is recognised in any case of letters and does not end inside a name.  Limiting a selector to the
viewport looks for the letters `body` as they are, whatever comes after them.

The two agree on every selector whose anchor does not go down from `html`, but for those that
begin with a longer name, which is cut, and for those that begin with `body` in another case,
which is missed.
-/

namespace ContainerPreview.Selector

open Text

/-- The anchor of the selector goes down from `html` to `body`. -/
def isBelowHtml (selector : List Char) : Bool :=
  ((dropHtml? selector).bind dropBody?).isSome

/-- The name that a text is in the middle of goes on. -/
def goesOn (rest : List Char) : Bool :=
  rest.head?.any isNameChar

/-- A selector with a guard in place of its anchor, or in front of it if it has none. -/
def guardInPlace (guard selector : List Char) : List Char :=
  match anchored? selector with
  | some found => guard ++ found.rest
  | none => guard ++ ' ' :: selector

/-- The beginning of a selector looks otherwise than it is: a longer name begins with the
letters `body`, or the element `body` is written in another case. -/
inductive Misleads (selector : List Char) : Prop
  | longerName {rest : List Char} (begins : selector = "body".toList ++ rest)
      (isLonger : goesOn rest)
  | otherCase {letters rest : List Char} (begins : selector = letters ++ rest)
      (isBody : lowerAscii letters = "body".toList) (isOther : letters ≠ "body".toList)
      (ends : goesOn rest = false)

/-! ## The letters of the body -/

/-- The letters other than `i`, `k` and `s` are matched by themselves in either case only. -/
theorem toLower_of_sameLetter {s c : Char} (isLower : s.isLower) (plain : s ∉ ['i', 'k', 's'])
    (same : sameLetter s c) : c.toLower = s := by
  have isFolded : foldCase c = s := by
    rw [sameLetter, beq_iff_eq, Value.foldCase_of_isLower isLower] at same
    exact same.symm
  rcases Value.foldCase_cases c with exotic | beyond | ⟨-, ofLower⟩
  · have areExotic : ∀ c ∈ ['İ', 'ı', 'ſ', '\u212a'], foldCase c ∈ ['i', 'k', 's'] := by decide
    have member := areExotic c exotic
    rw [isFolded] at member
    exact absurd member plain
  · have bounds := Value.toNat_of_isLower isLower
    rw [isFolded] at beyond
    omega
  · rw [← ofLower, isFolded]

theorem exists_letters_of_dropStartFolded? {word text rest : List Char}
    (letters : ∀ s ∈ word, s.isLower ∧ s ∉ ['i', 'k', 's'])
    (dropped : dropStartFolded? word text = some rest) :
    ∃ found, text = found ++ rest ∧ lowerAscii found = word := by
  induction word generalizing text with
  | nil =>
      cases dropped
      exact ⟨[], rfl, rfl⟩
  | cons s word inductionHypothesis =>
      obtain ⟨c, text, rfl, same, dropped⟩ := Value.exists_of_dropStartFolded?_cons dropped
      obtain ⟨⟨isLower, plain⟩, letters⟩ := List.forall_mem_cons.mp letters
      obtain ⟨found, rfl, sameFound⟩ := inductionHypothesis letters dropped
      refine ⟨c :: found, rfl, ?_⟩
      rw [lowerAscii, List.map_cons, toLower_of_sameLetter isLower plain same, ← lowerAscii,
        sameFound]

/-- A text begins with the letters of `body` in some case. -/
theorem dropStartFolded?_body_iff {text rest : List Char} :
    dropStartFolded? "body".toList text = some rest ↔
      ∃ letters, text = letters ++ rest ∧ lowerAscii letters = "body".toList := by
  constructor
  · exact exists_letters_of_dropStartFolded? (by decide)
  · rintro ⟨letters, rfl, isBody⟩
    have isWord : Media.IsWord "body" letters := ⟨by decide, by decide, isBody⟩
    exact isWord.dropStartFolded?_same rest

theorem dropBody?_eq_some_iff {text rest : List Char} :
    dropBody? text = some rest ↔
      (∃ letters, text = letters ++ rest ∧ lowerAscii letters = "body".toList) ∧
        goesOn rest = false := by
  rw [dropBody?, Option.filter_eq_some_iff, dropStartFolded?_body_iff, goesOn, Bool.not_eq_true']

/-- A text is divided after the letters of `body` in one way only. -/
theorem letters_unique {letters letters' rest rest' : List Char}
    (isBody : lowerAscii letters = "body".toList) (isBody' : lowerAscii letters' = "body".toList)
    (same : letters ++ rest = letters' ++ rest') : letters = letters' ∧ rest = rest' := by
  have sameLength : letters.length = letters'.length := by
    have length := congrArg List.length (isBody.trans isBody'.symm)
    rwa [lowerAscii, lowerAscii, List.length_map, List.length_map] at length
  exact List.append_inj same sameLength

theorem lowerAscii_body : lowerAscii "body".toList = "body".toList := by
  decide

/-! ## Guards in place of anchors -/

/-- Without `html` the anchor is `body` alone. -/
theorem guardInPlace_of_not_belowHtml {selector : List Char}
    (notHtml : isBelowHtml selector = false) (guard : List Char) :
    guardInPlace guard selector =
      match dropBody? selector with
      | some rest => guard ++ rest
      | none => guard ++ ' ' :: selector := by
  have isNone : (dropHtml? selector).bind dropBody? = none := by
    simpa [isBelowHtml] using notHtml
  rw [guardInPlace, anchored?, dropAnchor?, isNone, Option.none_or]
  cases dropBody? selector <;> rfl

/-- In front of a selector is not in place of its anchor. -/
theorem guard_in_front_ne {selector rest : List Char} (isRest : rest <:+ selector)
    (guard : List Char) : guard ++ ' ' :: selector ≠ guard ++ rest := by
  intro same
  have length := congrArg List.length (List.append_cancel_left same)
  have bound := isRest.length_le
  rw [List.length_cons] at length
  omega

/-- Below `html` no selector begins with `body`. -/
theorem guardSelector_of_belowHtml {selector : List Char} (isHtml : isBelowHtml selector)
    (guard : List Char) :
    MediaCopy.guardSelector guard selector ≠ guardInPlace guard selector := by
  obtain ⟨rest, dropped⟩ := Option.isSome_iff_exists.mp isHtml
  have isAnchor : dropAnchor? selector = some rest := by rw [dropAnchor?, dropped, Option.some_or]
  obtain ⟨afterHtml, found, -⟩ := Option.bind_eq_some_iff.mp dropped
  obtain ⟨afterName, isName, -⟩ := Option.bind_eq_some_iff.mp found
  obtain ⟨c, text, rfl, isFirst, -⟩ := Value.exists_of_dropStartFolded?_cons isName
  have notBody : dropStart? "body".toList (c :: text) = none := by
    rw [Option.eq_none_iff_forall_ne_some]
    intro after begins
    rw [dropStart?_eq_some_iff] at begins
    obtain rfl : c = 'b' := (List.cons.inj begins).1
    exact absurd isFirst (by decide)
  rw [MediaCopy.guardSelector, notBody, guardInPlace, anchored?, isAnchor]
  exact guard_in_front_ne (suffix_of_dropAnchor? isAnchor) guard

theorem misleads_of_begins {rest : List Char} :
    Misleads ("body".toList ++ rest) ↔ goesOn rest := by
  constructor
  · intro misleads
    cases misleads with
    | longerName begins isLonger => rwa [List.append_cancel_left begins]
    | otherCase begins isBody isOther =>
        exact absurd (letters_unique lowerAscii_body isBody begins).1.symm isOther
  · exact .longerName rfl

theorem misleads_of_not_begins {selector : List Char}
    (notBody : ∀ rest, selector ≠ "body".toList ++ rest) :
    Misleads selector ↔ (dropBody? selector).isSome := by
  rw [Option.isSome_iff_exists]
  simp only [dropBody?_eq_some_iff]
  constructor
  · intro misleads
    cases misleads with
    | longerName begins => exact absurd begins (notBody _)
    | @otherCase letters rest begins isBody _ ends => exact ⟨rest, ⟨letters, begins, isBody⟩, ends⟩
  · rintro ⟨rest, ⟨letters, rfl, isBody⟩, ends⟩
    refine .otherCase rfl isBody ?_ ends
    rintro rfl
    exact notBody rest rfl

/-- Limiting a selector to the viewport puts the guard in place of its anchor, if it has one,
and in front of it otherwise, exactly if the anchor does not go down from `html` and the selector
begins neither with a longer name that the letters `body` are the start of nor with `body` in
another case of letters. -/
theorem guardSelector_eq_guardInPlace_iff (guard selector : List Char) :
    MediaCopy.guardSelector guard selector = guardInPlace guard selector ↔
      isBelowHtml selector = false ∧ ¬ Misleads selector := by
  cases isHtml : isBelowHtml selector with
  | true => simpa using guardSelector_of_belowHtml isHtml guard
  | false =>
      rw [guardInPlace_of_not_belowHtml isHtml, MediaCopy.guardSelector]
      simp only [true_and]
      cases begins : dropStart? "body".toList selector with
      | some rest =>
          obtain rfl := dropStart?_eq_some_iff.mp begins
          have isBody : dropStartFolded? "body".toList ("body".toList ++ rest) = some rest :=
            dropStartFolded?_body_iff.mpr ⟨_, rfl, lowerAscii_body⟩
          rw [misleads_of_begins, dropBody?, isBody, Option.filter_some, ← goesOn]
          cases goesOn rest with
          | true =>
              have inFront := guard_in_front_ne (List.suffix_append "body".toList rest) guard
              simpa using inFront.symm
          | false => simp
      | none =>
          have notBody : ∀ rest, selector ≠ "body".toList ++ rest := by
            intro rest same
            rw [dropStart?_eq_some_iff.mpr same] at begins
            cases begins
          rw [misleads_of_not_begins notBody]
          cases isBody : dropBody? selector with
          | some rest => simpa using guard_in_front_ne (suffix_of_dropBody? isBody) guard
          | none => simp

/-- A longer name is cut: `body-card` loses its first four letters to the guard. -/
theorem not_guardSelector_eq_guardInPlace :
    ¬ ∀ (list : String) (guard : List Char), ∀ selector ∈ selectorsOf list.toList,
      isBelowHtml selector = false →
        MediaCopy.guardSelector guard selector = guardInPlace guard selector := by
  intro agree
  exact absurd (agree ".x, body-card" ":where(body:not([data-breakpoint-preview-mode]))".toList
    "body-card".toList (by decide +kernel) (by decide +kernel)) (by decide +kernel)

end ContainerPreview.Selector
