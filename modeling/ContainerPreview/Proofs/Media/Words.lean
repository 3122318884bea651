import ContainerPreview.Proofs.Media.Groups

/-!
# Words of a media query

Outside its groups a query is made of words in any case of letters, with blanks between them.
A word is dropped from the start of a text if it stands there, and the words of a text are
found one after another.
-/

namespace ContainerPreview.Media

open Text Value

/-! ## A word at the start -/

theorem foldCase_of_isAlpha {c : Char} (isAlpha : c.isAlpha) : foldCase c = c.toLower :=
  forall_ascii (fun c => c.isAlpha → foldCase c = c.toLower) (by decide) (toNat_of_isAlpha isAlpha)
    isAlpha

/-- A text is a word in some case of letters. -/
structure IsWord (word : String) (text : List Char) : Prop where
  letters : word.toList.all Char.isLower
  nonempty : word.toList ≠ []
  same : lowerAscii text = word.toList

namespace IsWord

variable {word other : String} {text : List Char}

theorem isAlpha (isWord : IsWord word text) : ∀ c ∈ text, c.isAlpha :=
  Joined.isAlpha_of_lowerAscii isWord.letters isWord.same

theorem exists_cons (isWord : IsWord word text) : ∃ c rest, text = c :: rest ∧ c.isAlpha := by
  cases text with
  | nil => exact absurd isWord.same.symm isWord.nonempty
  | cons c rest => exact ⟨c, rest, rfl, isWord.isAlpha c List.mem_cons_self⟩

theorem trimStart_append (isWord : IsWord word text) (rest : List Char) :
    trimStart (text ++ rest) = text ++ rest := by
  obtain ⟨c, others, rfl, isAlpha⟩ := isWord.exists_cons
  refine trimStart_of_head fun d isHead => ?_
  obtain rfl : c = d := Option.some.inj isHead
  exact Joined.notBlank_of_isAlpha isAlpha

theorem dropStartFolded?_same (isWord : IsWord word text) (rest : List Char) :
    dropStartFolded? word.toList (text ++ rest) = some rest := by
  obtain ⟨letters, -, same⟩ := isWord
  have isAlpha := Joined.isAlpha_of_lowerAscii letters same
  generalize word.toList = name at letters same
  induction name generalizing text with
  | nil =>
      obtain rfl : text = [] := List.map_eq_nil_iff.mp same
      rfl
  | cons s name inductionHypothesis =>
      obtain ⟨c, others, rfl, isSame, sameOthers⟩ := List.map_eq_cons_iff.mp same
      obtain ⟨isLetter, areLetters⟩ := List.forall_mem_cons.mp isAlpha
      rw [List.all_cons, Bool.and_eq_true] at letters
      have matching : sameLetter s c := by
        rw [sameLetter, foldCase_of_isLower letters.1, foldCase_of_isAlpha isLetter, isSame]
        exact beq_self_eq_true s
      rw [List.cons_append, dropStartFolded?, if_pos matching]
      exact inductionHypothesis areLetters letters.2 sameOthers

/-- A word does not begin with a word that has another first letter. -/
theorem dropStartFolded?_other (isWord : IsWord word text) (letters : other.toList.all Char.isLower)
    (different : other.toList.head? ≠ word.toList.head?) (nonempty : other.toList ≠ [])
    (rest : List Char) : dropStartFolded? other.toList (text ++ rest) = none := by
  obtain ⟨c, others, rfl, isAlpha⟩ := isWord.exists_cons
  have isFirst : word.toList.head? = some c.toLower := by
    rw [← isWord.same]
    rfl
  rw [isFirst] at different
  cases isName : other.toList with
  | nil => exact absurd isName nonempty
  | cons s name =>
      rw [isName, List.all_cons, Bool.and_eq_true] at letters
      rw [isName] at different
      have notSame : sameLetter s c = false := by
        rw [sameLetter, foldCase_of_isLower letters.1, foldCase_of_isAlpha isAlpha,
          beq_eq_false_iff_ne]
        exact fun same => different (congrArg some same)
      rw [List.cons_append, dropStartFolded?, notSame]
      rfl

theorem dropWord?_same (isWord : IsWord word text) {rest : List Char} (ends : wordEnds rest) :
    dropWord? word (text ++ rest) = some rest := by
  rw [dropWord?, isWord.dropStartFolded?_same rest, Option.filter_some, if_pos ends]

theorem dropWord?_other (isWord : IsWord word text) (letters : other.toList.all Char.isLower)
    (different : other.toList.head? ≠ word.toList.head?) (nonempty : other.toList ≠ [])
    (rest : List Char) : dropWord? other (text ++ rest) = none := by
  rw [dropWord?, isWord.dropStartFolded?_other letters different nonempty rest]
  rfl

theorem dropWordAndBlanks?_other (isWord : IsWord word text)
    (letters : other.toList.all Char.isLower)
    (different : other.toList.head? ≠ word.toList.head?) (nonempty : other.toList ≠ [])
    (rest : List Char) : dropWordAndBlanks? other (text ++ rest) = none := by
  rw [dropWordAndBlanks?, isWord.dropStartFolded?_other letters different nonempty rest]

theorem dropWordAndBlanks?_same (isWord : IsWord word text) {blanks : List Char}
    (areBlank : ∀ c ∈ blanks, isBlank c) (present : blanks ≠ []) (rest : List Char) :
    dropWordAndBlanks? word (text ++ (blanks ++ rest)) = some (trimStart rest) := by
  obtain ⟨c, blanks, rfl⟩ := List.exists_cons_of_ne_nil present
  obtain ⟨blank, areBlank⟩ := List.forall_mem_cons.mp areBlank
  rw [dropWordAndBlanks?, isWord.dropStartFolded?_same]
  simp only [List.cons_append, blank, if_true]
  rw [trimStart_append_of_blanks areBlank]

end IsWord

/-- What is no name character begins no word. -/
theorem dropStartFolded?_notName {name : List Char} (letters : name.all Char.isLower)
    (nonempty : name ≠ []) {c : Char} (notName : isNameChar c = false) (rest : List Char) :
    dropStartFolded? name (c :: rest) = none := by
  obtain ⟨s, name, rfl⟩ := List.exists_cons_of_ne_nil nonempty
  rw [List.all_cons, Bool.and_eq_true] at letters
  have notSame : sameLetter s c = false := by
    by_contra same
    rw [Bool.not_eq_false] at same
    have isName := (class_of_sameLetter_isLower letters.1 same).1
    rw [notName] at isName
    cases isName
  rw [dropStartFolded?, notSame]
  rfl

theorem dropStartFolded?_opening {name : List Char} (letters : name.all Char.isLower)
    (nonempty : name ≠ []) (rest : List Char) : dropStartFolded? name ('(' :: rest) = none :=
  dropStartFolded?_notName letters nonempty (by decide) rest

theorem wordEnds_of_isBlank {blanks : List Char} (areBlank : ∀ c ∈ blanks, isBlank c)
    (present : blanks ≠ []) (rest : List Char) : wordEnds (blanks ++ rest) := by
  obtain ⟨c, blanks, rfl⟩ := List.exists_cons_of_ne_nil present
  have notName := (notNumber_of_isSeparator
    (isSeparator_of_isBlank (areBlank c List.mem_cons_self))).1
  rw [isNameChar, Bool.or_eq_false_iff] at notName
  simp [wordEnds, notName.1]

/-! ## All words -/

/-- The text of a query with a space in place of every group. -/
def ungrouped (text : List Char) : List Char :=
  mapGroups (fun _ => [' ']) text

/-- No word goes on at the start of a text. -/
def EndsWord (text : List Char) : Prop :=
  ∀ c ∈ (ungrouped text).head?, isFoldedLetter c = false

theorem isFoldedLetter_of_isBlank {c : Char} (blank : isBlank c) : isFoldedLetter c = false := by
  cases isLetter : isFoldedLetter c with
  | false => rfl
  | true =>
      have same : sameLetter (foldCase c) c := by
        rw [sameLetter, foldCase_of_isLower isLetter]
        exact beq_self_eq_true _
      have isName := (class_of_sameLetter_isLower isLetter same).1
      rw [(notNumber_of_isSeparator (isSeparator_of_isBlank blank)).1] at isName
      cases isName

theorem ungrouped_blanks {blanks : List Char} (areBlank : ∀ c ∈ blanks, isBlank c)
    (rest : List Char) : ungrouped (blanks ++ rest) = blanks ++ ungrouped rest :=
  Joined.mapGroups_append _ (fun c member => Joined.ne_opening_of_isBlank (areBlank c member)) rest

theorem ungrouped_word {word : String} {text : List Char} (isWord : IsWord word text)
    (rest : List Char) : ungrouped (text ++ rest) = text ++ ungrouped rest :=
  Joined.mapGroups_append _
    (fun c member => Joined.ne_opening_of_isAlpha (isWord.isAlpha c member)) rest

theorem endsWord_nil : EndsWord [] := by
  rw [EndsWord, ungrouped, Joined.mapGroups_nil]
  simp

theorem endsWord_blanks {blanks rest : List Char} (areBlank : ∀ c ∈ blanks, isBlank c)
    (ends : EndsWord rest) : EndsWord (blanks ++ rest) := by
  rw [EndsWord, ungrouped_blanks areBlank]
  cases blanks with
  | nil => exact ends
  | cons b blanks =>
      rintro c isHead
      obtain rfl : b = c := Option.some.inj isHead
      exact isFoldedLetter_of_isBlank (areBlank b List.mem_cons_self)

theorem ungrouped_group {inside : List Char} (noGroup : ∀ c ∈ inside, isUngrouped c)
    (after : List Char) : ungrouped ('(' :: (inside ++ ')' :: after)) = ' ' :: ungrouped after :=
  Joined.mapGroups_group _ noGroup after

theorem wordsFrom_blanks {blanks : List Char} (areBlank : ∀ c ∈ blanks, isBlank c)
    (rest : List Char) : wordsFrom [] (blanks ++ rest) = wordsFrom [] rest := by
  induction blanks with
  | nil => rfl
  | cons c blanks inductionHypothesis =>
      obtain ⟨blank, areBlank⟩ := List.forall_mem_cons.mp areBlank
      rw [List.cons_append, wordsFrom, isFoldedLetter_of_isBlank blank]
      exact inductionHypothesis areBlank

theorem wordsFrom_letters {letters : List Char} (areLetters : ∀ c ∈ letters, isFoldedLetter c)
    (word rest : List Char) :
    wordsFrom word (letters ++ rest) = wordsFrom (letters.reverse ++ word) rest := by
  induction letters generalizing word with
  | nil => rfl
  | cons c letters inductionHypothesis =>
      obtain ⟨isLetter, areLetters⟩ := List.forall_mem_cons.mp areLetters
      rw [List.cons_append, wordsFrom, if_pos isLetter, inductionHypothesis areLetters]
      simp

theorem wordsFrom_ended {word rest : List Char} (nonempty : word ≠ [])
    (ends : ∀ c ∈ rest.head?, isFoldedLetter c = false) :
    wordsFrom word rest = word.reverse :: wordsFrom [] rest := by
  have present : word.isEmpty = false := by simpa using nonempty
  cases rest with
  | nil => simp [wordsFrom, present]
  | cons c rest => simp [wordsFrom, ends c rfl, present]

theorem outerWords_nil : outerWords [] = [] := by
  rw [outerWords, Joined.mapGroups_nil]
  rfl

theorem outerWords_blanks {blanks : List Char} (areBlank : ∀ c ∈ blanks, isBlank c)
    (rest : List Char) : outerWords (blanks ++ rest) = outerWords rest := by
  have same := ungrouped_blanks areBlank rest
  rw [ungrouped] at same
  rw [outerWords, same, wordsFrom_blanks areBlank]
  rfl

theorem outerWords_group {inside : List Char} (noGroup : ∀ c ∈ inside, isUngrouped c)
    (after : List Char) : outerWords ('(' :: (inside ++ ')' :: after)) = outerWords after := by
  have same := ungrouped_group noGroup after
  rw [ungrouped] at same
  rw [outerWords, same]
  exact congrArg (List.map lower) (wordsFrom_blanks (show ∀ c ∈ [' '], isBlank c by decide) _)

theorem lower_of_isAlpha {text : List Char} (areAlpha : ∀ c ∈ text, c.isAlpha) :
    lower text = lowerAscii text := by
  induction text with
  | nil => rfl
  | cons c text inductionHypothesis =>
      obtain ⟨isAlpha, areAlpha⟩ := List.forall_mem_cons.mp areAlpha
      have isLetter : lowerChar c = [c.toLower] :=
        forall_ascii (fun c => c.isAlpha → lowerChar c = [c.toLower]) (by decide)
          (toNat_of_isAlpha isAlpha) isAlpha
      rw [lower, List.flatMap_cons, isLetter]
      exact congrArg (c.toLower :: ·) (inductionHypothesis areAlpha)

theorem outerWords_word {word : String} {text rest : List Char} (isWord : IsWord word text)
    (ends : EndsWord rest) : outerWords (text ++ rest) = word.toList :: outerWords rest := by
  have areLetters : ∀ c ∈ text, isFoldedLetter c := fun c member =>
    forall_ascii (fun c => c.isAlpha → isFoldedLetter c) (by decide)
      (toNat_of_isAlpha (isWord.isAlpha c member)) (isWord.isAlpha c member)
  have nonempty : text.reverse ≠ [] := by
    obtain ⟨c, others, rfl, -⟩ := isWord.exists_cons
    simp
  have same := ungrouped_word isWord rest
  rw [ungrouped] at same
  rw [outerWords, same, wordsFrom_letters areLetters, List.append_nil, wordsFrom_ended nonempty ends,
    List.reverse_reverse, List.map_cons, lower_of_isAlpha isWord.isAlpha, isWord.same]
  rfl

theorem isWord_and {text : List Char} (isAnd : lowerAscii text = "and".toList) :
    IsWord "and" text :=
  ⟨by decide, by decide, isAnd⟩

theorem Joined.endsWord {insides : List (List Char)} {text : List Char}
    (joined : Joined insides text) : EndsWord text := by
  have ofGroup : ∀ {inside after : List Char}, (∀ c ∈ inside, isUngrouped c) →
      EndsWord ('(' :: (inside ++ ')' :: after)) := fun noGroup => by
    rw [EndsWord, ungrouped_group noGroup]
    rintro c isHead
    obtain rfl : ' ' = c := Option.some.inj isHead
    decide
  cases joined with
  | single noGroup => exact ofGroup noGroup
  | cons noGroup => exact ofGroup noGroup

/-- Outside its groups a text joined by `and` has no other word. -/
theorem Joined.outerWords {insides : List (List Char)} {text : List Char}
    (joined : Joined insides text) : ∀ word ∈ outerWords text, word = "and".toList := by
  induction joined with
  | single noGroup =>
      have none := outerWords_group noGroup []
      rw [outerWords_nil] at none
      rw [none]
      simp
  | cons noGroup beforeBlank isAnd afterBlank later inductionHypothesis =>
      rw [outerWords_group noGroup, outerWords_blanks beforeBlank,
        outerWords_word (isWord_and isAnd) (endsWord_blanks afterBlank later.endsWord),
        outerWords_blanks afterBlank]
      exact List.forall_mem_cons.mpr ⟨rfl, inductionHypothesis⟩

end ContainerPreview.Media
