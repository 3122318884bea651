import ContainerPreview.Proofs.Value.Arranged

/-!
# What conversion keeps

If units are words and stand for words, conversion keeps the parentheses and commas of a text in
their order, and the text begins and ends as it did: with the same character, or inside a number
and a name.
-/

namespace ContainerPreview

open Text

namespace Value

section Words

variable {scheme : Scheme}

/-! ## Parentheses and commas -/

theorem skeleton_word {word : List Char} (isWord : ∀ c ∈ word, isNameChar c ∧ isNumberChar c = false) :
    skeleton word = [] :=
  skeleton_eq_nil fun c member => .inl (isWord c member).1

theorem skeleton_number {number : List Char} (isNumber : isNumber number) : skeleton number = [] :=
  skeleton_eq_nil fun c member => .inr (.inl (isNumberChar_of_isNumber isNumber c member))

theorem skeleton_blanks {blanks : List Char} (areBlank : ∀ c ∈ blanks, isBlank c) :
    skeleton blanks = [] :=
  skeleton_eq_nil fun c member => .inr (.inr (areBlank c member))

theorem skeleton_trim (text : List Char) : skeleton (trim text) = skeleton text := by
  obtain ⟨left, right, same, leftBlank, rightBlank⟩ := exists_append_trim text
  nth_rewrite 2 [same]
  rw [skeleton_append, skeleton_append, skeleton_blanks leftBlank, skeleton_blanks rightBlank,
    List.nil_append, List.append_nil]

theorem skeleton_convertPiece (hasWords : scheme.HasWords) {piece : Piece}
    (isQuantity : ∀ number unit, piece = .quantity number unit →
      IsQuantity scheme.names number unit) :
    skeleton (scheme.convertPiece piece) = skeleton piece.text := by
  cases piece with
  | plain c => rfl
  | quantity number unit =>
      have isRead := isQuantity number unit rfl
      rw [Scheme.convertPiece, Piece.text, skeleton_append, skeleton_append,
        skeleton_word (hasWords.isWord isRead.isUnit).2,
        skeleton_word (class_of_isUnit hasWords.hasNames isRead.isUnit).2]

theorem skeleton_swapUnits (hasWords : scheme.HasWords) (text : List Char) :
    skeleton (scheme.swapUnits text) = skeleton text := by
  have ofPieces : ∀ pieces : List Piece, (∀ number unit, .quantity number unit ∈ pieces →
      IsQuantity scheme.names number unit) →
        skeleton (pieces.flatMap scheme.convertPiece) = skeleton (pieces.flatMap Piece.text) := by
    intro pieces areRead
    induction pieces with
    | nil => rfl
    | cons piece pieces inductionHypothesis =>
        rw [List.flatMap_cons, List.flatMap_cons, skeleton_append, skeleton_append,
          skeleton_convertPiece hasWords fun number unit same =>
            areRead number unit (same ▸ List.mem_cons_self),
          inductionHypothesis fun number unit member =>
            areRead number unit (List.mem_cons_of_mem _ member)]
  rw [Scheme.swapUnits, pieces, ofPieces _ fun number unit member =>
    isQuantity_of_mem_piecesAfter hasWords.hasNames member, flatMap_text_piecesAfter]

theorem skeleton_turned (hasWords : scheme.HasWords) {sum : FluidSum}
    (isRead : sum.IsRead scheme.names) : skeleton (sum.turned scheme) = [] := by
  have ofSign : skeleton (' ' :: '+' :: ' ' :: (sum.number ++ scheme.targetOf sum.unit)) = [] := by
    rw [skeleton_cons_of_not_isBone (by decide), skeleton_cons_of_not_isBone (by decide),
      skeleton_cons_of_not_isBone (by decide), skeleton_append,
      skeleton_number isRead.quantity.isNumber,
      skeleton_word (hasWords.isWord isRead.quantity.isUnit).2, List.append_nil]
  have ofRem : skeleton remUnit = [] := by decide
  rw [FluidSum.turned, skeleton_append, skeleton_append, skeleton_append, skeleton_append, ofSign,
    ofRem, skeleton_blanks isRead.left, skeleton_blanks isRead.right,
    skeleton_number isRead.size.isNumber]
  rfl

/-- Parts that are trimmed and joined by a comma and a space have the commas of the text that
they were split from. -/
theorem skeleton_joined {parts : List (List Char × List Char)}
    (same : ∀ part ∈ parts, skeleton part.2 = skeleton (trim part.1)) :
    skeleton ([',', ' '].intercalate (parts.map Prod.snd)) =
      skeleton ([','].intercalate (parts.map Prod.fst)) := by
  induction parts with
  | nil => rfl
  | cons part parts inductionHypothesis =>
      obtain ⟨here, later⟩ := List.forall_mem_cons.mp same
      rw [skeleton_trim] at here
      cases parts with
      | nil =>
          rw [List.map_singleton, List.map_singleton, List.intercalate_singleton,
            List.intercalate_singleton, here]
      | cons second parts =>
          have ofComma : skeleton [',', ' '] = skeleton [','] := by decide
          rw [List.map_cons, List.map_cons, List.map_cons, List.map_cons, List.intercalate_cons_cons,
            List.intercalate_cons_cons, skeleton_append, skeleton_append, skeleton_append,
            skeleton_append, here, ofComma, ← List.map_cons, ← List.map_cons,
            inductionHypothesis later]

/-- Conversion keeps parentheses and commas. -/
theorem Scheme.Arranges.skeleton_eq (hasWords : scheme.HasWords) {site : Site}
    {text out : List Char} (arranges : scheme.Arranges site text out) :
    skeleton out = skeleton text := by
  induction arranges with
  | swap => exact skeleton_swapUnits hasWords _
  | turn turns isRead =>
      rw [skeleton_turned hasWords isRead, skeleton_sum hasWords.hasNames isRead]
  | call isText found ofBody ofAfter bodyHypothesis afterHypothesis =>
      rw [(Call.isFirst found).hasHead.text_eq]
      simp only [skeleton_append, skeleton_swapUnits hasWords, skeleton_cons_of_isBone,
        show isBone '(' by decide, show isBone ')' by decide, bodyHypothesis, afterHypothesis]
  | @arguments text parts split ofParts inductionHypothesis =>
      rw [skeleton_joined inductionHypothesis, ← split]
      exact congrArg skeleton (intercalate_splitFrom ',' Scan.start text)

/-! ## The ends of a text -/

/-- Two texts begin with the same character, or with characters of numbers. -/
def BeginsAlike (text out : List Char) : Prop :=
  out.head? = text.head? ∨ (∃ c ∈ text.head?, isNumberChar c) ∧ ∃ c ∈ out.head?, isNumberChar c

/-- Two texts end with the same character, or with characters of names. -/
def EndsAlike (text out : List Char) : Prop :=
  out.getLast? = text.getLast? ∨
    (∃ c ∈ text.getLast?, isNameChar c) ∧ ∃ c ∈ out.getLast?, isNameChar c

theorem EndsAlike.eq_nil {out : List Char} (alike : EndsAlike [] out) : out = [] := by
  rcases alike with same | ⟨⟨c, isLast, -⟩, -⟩
  · exact List.getLast?_eq_none_iff.mp same
  · cases isLast

theorem EndsAlike.ne_nil {text out : List Char} (alike : EndsAlike text out)
    (nonempty : text ≠ []) : out ≠ [] := by
  rintro rfl
  rcases alike with same | ⟨-, c, isLast, -⟩
  · exact nonempty (List.getLast?_eq_none_iff.mp same.symm)
  · cases isLast

theorem EndsAlike.append {right right' : List Char} (alike : EndsAlike right right')
    (left left' : List Char) (nonempty : right ≠ []) : EndsAlike (left ++ right) (left' ++ right') := by
  rw [EndsAlike, List.getLast?_append_of_ne_nil _ nonempty,
    List.getLast?_append_of_ne_nil _ (alike.ne_nil nonempty)]
  exact alike

theorem isNameChar_last (left : List Char) {word : List Char} (nonempty : word ≠ [])
    (isWord : ∀ c ∈ word, isNameChar c ∧ isNumberChar c = false) :
    ∃ c ∈ (left ++ word).getLast?, isNameChar c := by
  rw [List.getLast?_append_of_ne_nil _ nonempty]
  exact ⟨_, List.getLast?_eq_some_getLast nonempty, (isWord _ (List.getLast_mem nonempty)).1⟩

theorem endsAlike_convertPiece (hasWords : scheme.HasWords) (piece : Piece)
    (isQuantity : ∀ number unit, piece = .quantity number unit →
      IsQuantity scheme.names number unit) :
    piece.text ≠ [] ∧ EndsAlike piece.text (scheme.convertPiece piece) := by
  cases piece with
  | plain c => exact ⟨List.cons_ne_nil c [], .inl rfl⟩
  | quantity number unit =>
      have isUnit := (isQuantity number unit rfl).isUnit
      obtain ⟨nonempty, isWord⟩ := class_of_isUnit hasWords.hasNames isUnit
      obtain ⟨targetNonempty, targetWord⟩ := hasWords.isWord isUnit
      exact ⟨List.append_ne_nil_of_right_ne_nil number nonempty, .inr
        ⟨isNameChar_last number nonempty isWord, isNameChar_last number targetNonempty targetWord⟩⟩

theorem alike_swapUnits (hasWords : scheme.HasWords) (text : List Char) :
    BeginsAlike text (scheme.swapUnits text) ∧ EndsAlike text (scheme.swapUnits text) := by
  have areRead : ∀ number unit, .quantity number unit ∈ pieces scheme.names text →
      IsQuantity scheme.names number unit := fun number unit member =>
    isQuantity_of_mem_piecesAfter hasWords.hasNames member
  have isText : (pieces scheme.names text).flatMap Piece.text = text :=
    flatMap_text_piecesAfter _ _ _
  rw [Scheme.swapUnits]
  generalize pieces scheme.names text = pieces at areRead isText
  subst isText
  constructor
  · cases pieces with
    | nil => exact .inl rfl
    | cons piece pieces =>
        cases piece with
        | plain c => exact .inl rfl
        | quantity number unit =>
            have isRead := areRead number unit List.mem_cons_self
            obtain ⟨c, number, rfl⟩ :=
              List.exists_cons_of_ne_nil (nonempty_of_isNumber isRead.isNumber)
            exact .inl rfl
  · rcases List.eq_nil_or_concat' pieces with rfl | ⟨others, piece, rfl⟩
    · exact .inl rfl
    · obtain ⟨nonempty, alike⟩ := endsAlike_convertPiece hasWords piece
        fun number unit same => areRead number unit (by simp [same])
      rw [List.flatMap_append, List.flatMap_append, List.flatMap_singleton, List.flatMap_singleton]
      exact alike.append _ _ nonempty

theorem alike_turned (hasWords : scheme.HasWords) {sum : FluidSum}
    (isRead : sum.IsRead scheme.names) :
    BeginsAlike sum.text (sum.turned scheme) ∧ EndsAlike sum.text (sum.turned scheme) := by
  constructor
  · cases left : sum.left with
    | cons c others => exact .inl (by rw [FluidSum.text, FluidSum.turned, left]; rfl)
    | nil =>
        obtain ⟨c, number, isNumber⟩ :=
          List.exists_cons_of_ne_nil (nonempty_of_isNumber isRead.quantity.isNumber)
        obtain ⟨d, size, isSize⟩ :=
          List.exists_cons_of_ne_nil (nonempty_of_isNumber isRead.size.isNumber)
        refine .inr ⟨⟨c, ?_, ?_⟩, d, ?_, ?_⟩
        · rw [FluidSum.text, left, isNumber]
          rfl
        · exact isNumberChar_of_isNumber isRead.quantity.isNumber c (isNumber ▸ List.mem_cons_self)
        · rw [FluidSum.turned, left, isSize]
          rfl
        · exact isNumberChar_of_isNumber isRead.size.isNumber d (isSize ▸ List.mem_cons_self)
  · rw [FluidSum.text, FluidSum.turned]
    cases right : sum.right with
    | cons c others => exact EndsAlike.append (.inl rfl) _ _ (List.cons_ne_nil c others)
    | nil =>
        obtain ⟨remNonempty, remWord⟩ := class_of_isUnit isUnitName_remUnit isRead.size.isUnit
        obtain ⟨targetNonempty, targetWord⟩ := hasWords.isWord isRead.quantity.isUnit
        have ofRem := isNameChar_last (sum.left ++ (sum.number ++ sum.unit ++
          (sum.beforePlus ++ '+' :: (sum.afterPlus ++ sum.size)))) remNonempty remWord
        have ofTarget := isNameChar_last (sum.left ++ (sum.size ++ remUnit ++
          ' ' :: '+' :: ' ' :: sum.number)) targetNonempty targetWord
        refine .inr ⟨?_, ?_⟩
        · simpa [FluidSum.addend] using ofRem
        · simpa using ofTarget

/-- A converted text begins and ends like the text. -/
theorem Scheme.Arranges.alike (hasWords : scheme.HasWords) {site : Site} {text out : List Char}
    (arranges : scheme.Arranges site text out) (isText : site ≠ .arguments) :
    BeginsAlike text out ∧ EndsAlike text out := by
  induction arranges with
  | swap => exact alike_swapUnits hasWords _
  | turn turns isRead => exact alike_turned hasWords isRead
  | @call site text body after call _ found ofBody ofAfter _ afterHypothesis =>
      rw [(Call.isFirst found).hasHead.text_eq]
      constructor
      · have ofBefore := (alike_swapUnits hasWords call.before).1
        cases before : call.before with
        | nil =>
            obtain ⟨c, name, isName⟩ :=
              List.exists_cons_of_ne_nil (Call.isFirst found).hasHead.spells.class.1
            rw [Scheme.swapUnits_nil, isName]
            exact .inl rfl
        | cons c others =>
            rw [before] at ofBefore
            cases swapped : scheme.swapUnits (c :: others) with
            | nil =>
                rw [swapped] at ofBefore
                rcases ofBefore with same | ⟨-, d, isHead, -⟩
                · cases same
                · cases isHead
            | cons d others' =>
                rw [swapped] at ofBefore
                exact ofBefore
      · have ofEnd : EndsAlike (')' :: call.after) (')' :: after) := by
          by_cases nonempty : call.after = []
          · have alike := (afterHypothesis (by decide)).2
            rw [nonempty] at alike ⊢
            rw [alike.eq_nil]
            exact .inl rfl
          · exact (afterHypothesis (by decide)).2.append [')'] [')'] nonempty
        have joined := ofEnd.append (call.before ++ (call.name ++ '(' :: call.body))
          (scheme.swapUnits call.before ++ (call.name ++ '(' :: body)) (List.cons_ne_nil _ _)
        simpa using joined
  | arguments => exact absurd rfl isText

end Words

section Consequences

variable {text out : List Char}

/-- A name goes on after both texts or after neither. -/
theorem EndsAlike.lastAfter (alike : EndsAlike text out) {previous other : Option Char}
    (same : other.any isNameChar = previous.any isNameChar) :
    (Value.lastAfter other out).any isNameChar = (Value.lastAfter previous text).any isNameChar := by
  by_cases nonempty : text = []
  · subst nonempty
    rw [alike.eq_nil]
    exact same
  · rw [lastAfter_eq_getLast? _ nonempty, lastAfter_eq_getLast? _ (alike.ne_nil nonempty)]
    rcases alike with same | ⟨⟨c, isLast, isName⟩, d, isLast', isName'⟩
    · rw [same]
    · rw [Option.mem_def.mp isLast, Option.mem_def.mp isLast', Option.any_some, Option.any_some,
        isName, isName']

/-- What is made of a trimmed text is trimmed. -/
theorem isTrimmed_of_alike (alike : BeginsAlike text out ∧ EndsAlike text out)
    (isTrimmed : IsTrimmed text) : IsTrimmed out := by
  obtain ⟨begins, ends⟩ := alike
  constructor
  · intro c isHead
    rcases begins with same | ⟨-, d, isHead', isNumber⟩
    · exact isTrimmed.1 c (same ▸ isHead)
    · obtain rfl := Option.mem_unique isHead isHead'
      exact isBlank_of_isNumberChar isNumber
  · intro c isLast
    rcases ends with same | ⟨-, d, isLast', isName⟩
    · exact isTrimmed.2 c (same ▸ isLast)
    · obtain rfl := Option.mem_unique isLast isLast'
      exact isBlank_of_isNameChar isName

end Consequences

end Value

end ContainerPreview
