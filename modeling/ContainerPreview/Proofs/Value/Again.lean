import ContainerPreview.Proofs.Text.Split
import ContainerPreview.Proofs.Value.Clean

/-!
# Converting a text again

A text of ASCII that has been converted is converted to itself.  It has its calls where the text
had them: no head of a function is lost or arises, parentheses are closed where they were, and a
scan that splits arguments goes over both in the same way.  Its arguments are trimmed already,
and there is no quantity left in it.
-/

namespace ContainerPreview

open Text

namespace Value

namespace Scheme

variable {scheme : Scheme}

/-! ## Scanning for commas -/

theorem counts_of_class {c : Char} (plain : isNameChar c ∨ isNumberChar c ∨ isBlank c) :
    Scan.counts c = false := by
  have isPlain : (isNameChar c || isNumberChar c || isBlank c) = true := by
    simpa [or_assoc] using plain
  exact Scan.counts_eq_false (p := fun c => isNameChar c || isNumberChar c || isBlank c)
    (by decide) isPlain

theorem counts_of_word {word : List Char}
    (isWord : ∀ c ∈ word, isNameChar c ∧ isNumberChar c = false) :
    ∀ c ∈ word, Scan.counts c = false := fun c member => counts_of_class (.inl (isWord c member).1)

theorem counts_of_number {number : List Char} (isNumber : isNumber number) :
    ∀ c ∈ number, Scan.counts c = false := fun c member =>
  counts_of_class (.inr (.inl (isNumberChar_of_isNumber isNumber c member)))

theorem counts_of_blanks {blanks : List Char} (areBlank : ∀ c ∈ blanks, isBlank c) :
    ∀ c ∈ blanks, Scan.counts c = false := fun c member =>
  counts_of_class (.inr (.inr (areBlank c member)))

theorem scan_convertPiece (hasWords : scheme.HasWords) {scan : Scan} (sound : scan.Sound)
    (piece : Piece) (isQuantity : ∀ number unit, piece = .quantity number unit →
      IsQuantity scheme.names number unit) : scan.Alike piece.text (scheme.convertPiece piece) := by
  cases piece with
  | plain c => exact .refl scan [c]
  | quantity number unit =>
      have isRead := isQuantity number unit rfl
      obtain ⟨nonempty, isWord⟩ := class_of_isUnit hasWords.hasNames isRead.isUnit
      obtain ⟨targetNonempty, targetWord⟩ := hasWords.isWord isRead.isUnit
      apply Scan.alike_of_not_counts sound
      · exact List.append_ne_nil_of_right_ne_nil number nonempty
      · exact List.forall_mem_append.mpr
          ⟨counts_of_number isRead.isNumber, counts_of_word isWord⟩
      · exact List.append_ne_nil_of_right_ne_nil number targetNonempty
      · exact List.forall_mem_append.mpr
          ⟨counts_of_number isRead.isNumber, counts_of_word targetWord⟩

theorem scan_swapUnits (hasWords : scheme.HasWords) {scan : Scan} (sound : scan.Sound)
    (text : List Char) : scan.Alike text (scheme.swapUnits text) := by
  have ofPieces : ∀ pieces : List Piece, (∀ number unit, .quantity number unit ∈ pieces →
      IsQuantity scheme.names number unit) → ∀ scan : Scan, scan.Sound →
        scan.Alike (pieces.flatMap Piece.text) (pieces.flatMap scheme.convertPiece) := by
    intro pieces areRead
    induction pieces with
    | nil => exact fun scan _ => .refl scan []
    | cons piece pieces inductionHypothesis =>
        intro scan sound
        have ofPiece := scan_convertPiece hasWords sound piece fun number unit same =>
          areRead number unit (same ▸ List.mem_cons_self)
        exact ofPiece.append (inductionHypothesis (fun number unit member =>
          areRead number unit (List.mem_cons_of_mem _ member)) _ (sound.after piece.text))
  have same := ofPieces (pieces scheme.names text) (fun number unit member =>
    isQuantity_of_mem_piecesAfter hasWords.hasNames member) scan sound
  rwa [pieces, flatMap_text_piecesAfter] at same

theorem scan_turned (hasWords : scheme.HasWords) {scan : Scan} (sound : scan.Sound)
    {sum : FluidSum} (isRead : sum.IsRead scheme.names) :
    scan.Alike sum.text (sum.turned scheme) := by
  have ofNumber := counts_of_number isRead.quantity.isNumber
  have ofSize := counts_of_number isRead.size.isNumber
  have ofUnit := counts_of_word (class_of_isUnit hasWords.hasNames isRead.quantity.isUnit).2
  have ofTarget := counts_of_word (hasWords.isWord isRead.quantity.isUnit).2
  have ofRem := counts_of_word (class_of_isUnit isUnitName_remUnit isRead.size.isUnit).2
  have ofRemUnit : ∀ c ∈ remUnit ++ [' ', '+', ' '], Scan.counts c = false := by decide
  have plus : Scan.counts '+' = false := by decide
  have ofLeft := counts_of_blanks isRead.left
  have ofRight := counts_of_blanks isRead.right
  have ofBefore := counts_of_blanks isRead.beforePlus
  have ofAfter := counts_of_blanks isRead.afterPlus
  apply Scan.alike_of_not_counts sound
  · simp [FluidSum.text, FluidSum.addend]
  · simp only [FluidSum.text, FluidSum.addend, List.forall_mem_append, List.forall_mem_cons]
    exact ⟨⟨ofLeft, ⟨ofNumber, ofUnit⟩, ofBefore, plus, ofAfter, ofSize, ofRem⟩, ofRight⟩
  · simp [FluidSum.turned]
  · simp only [List.forall_mem_append, List.forall_mem_cons] at ofRemUnit
    simp only [FluidSum.turned, List.forall_mem_append, List.forall_mem_cons]
    exact ⟨⟨ofLeft, ⟨ofSize, ofRemUnit.1⟩, ofRemUnit.2.1, plus, ofRemUnit.2.1, ofNumber, ofTarget⟩,
      ofRight⟩

/-- An argument with what ends it is scanned like its conversion, from where no backslash has
been met. -/
theorem scan_argument {scan : Scan} (sound : scan.Sound) (notEscaped : scan.escaped = false)
    {argument out : List Char}
    (alike : ∀ scan : Scan, scan.Sound → scan.Alike (trim argument) out) {closer : Char}
    (closes : closer = ',' ∨ closer = ')') :
    scan.Alike (argument ++ [closer]) (out ++ [closer]) := by
  obtain ⟨left, right, same, leftBlank, rightBlank⟩ := exists_append_trim argument
  have ofLeft := (Scan.alike_blanks sound notEscaped leftBlank).2
  have isAfter := (Scan.alike_blanks sound notEscaped leftBlank).1
  have ofRight : (scan.after (trim argument)).Alike (right ++ [closer]) [closer] :=
    Scan.alike_blanks_closer (sound.after (trim argument)) rightBlank closes
  have inside : scan.Alike (trim argument ++ (right ++ [closer])) (out ++ [closer]) :=
    (alike scan sound).append ofRight
  rw [← isAfter] at inside
  have whole := ofLeft.append inside
  rw [same]
  simpa using whole

theorem scan_joined {parts : List (List Char × List Char)}
    (alike : ∀ part ∈ parts, ∀ scan : Scan, scan.Sound → scan.Alike (trim part.1) part.2)
    {scan : Scan} (sound : scan.Sound) (notEscaped : scan.escaped = false) :
    scan.Alike ([','].intercalate (parts.map Prod.fst) ++ [')'])
      ([',', ' '].intercalate (parts.map Prod.snd) ++ [')']) := by
  induction parts generalizing scan with
  | nil => exact .refl scan [')']
  | cons part parts inductionHypothesis =>
      obtain ⟨here, later⟩ := List.forall_mem_cons.mp alike
      cases parts with
      | nil => simpa using scan_argument sound notEscaped here (.inr rfl)
      | cons second parts =>
          have closes : ',' = ',' ∨ ',' = ')' := .inl rfl
          have ofPart := scan_argument sound notEscaped here closes
          have soundRest := sound.after (part.1 ++ [','])
          have notEscapedRest : (scan.after (part.1 ++ [','])).escaped = false := by
            rw [Scan.after_append]
            exact Scan.escaped_step (sound.after part.1) (by decide)
          have ofSpace : (scan.after (part.1 ++ [','])).Alike [] [' '] := by
            have blank : ∀ c ∈ [' '], isBlank c := by decide
            obtain ⟨isAfter, passes⟩ := (Scan.alike_blanks soundRest notEscapedRest blank).2
            exact ⟨isAfter.symm, passes.symm⟩
          have ofRest := ofSpace.append (inductionHypothesis later soundRest notEscapedRest)
          have joined := ofPart.append ofRest
          simpa using joined

/-- A scan goes over a text and its conversion alike; over the arguments of a call it does with
the parenthesis that closes them. -/
theorem Arranges.scan (hasWords : scheme.HasWords) {site : Site} {text out : List Char}
    (arranges : scheme.Arranges site text out) {scan : Scan} (sound : scan.Sound) :
    (site ≠ .arguments → scan.Alike text out) ∧
      (scan.escaped = false → scan.Alike (text ++ [')']) (out ++ [')'])) := by
  have closed : ∀ {text out : List Char} {scan : Scan}, scan.Alike text out →
      scan.Alike (text ++ [')']) (out ++ [')']) := fun alike => alike.append (.refl _ _)
  induction arranges generalizing scan with
  | swap =>
      have alike := scan_swapUnits hasWords sound
      exact ⟨fun _ => alike _, fun _ => closed (alike _)⟩
  | turn turns isRead =>
      have alike := scan_turned hasWords sound isRead
      exact ⟨fun _ => alike, fun _ => closed alike⟩
  | @call site text body after call isText found ofBody ofAfter bodyHypothesis afterHypothesis =>
      have alike : scan.Alike text
          (scheme.swapUnits call.before ++ (call.name ++ '(' :: (body ++ ')' :: after))) := by
        rw [(Call.isFirst found).hasHead.text_eq]
        have ofHead : scan.Alike (call.before ++ (call.name ++ ['(']))
            (scheme.swapUnits call.before ++ (call.name ++ ['('])) :=
          (scan_swapUnits hasWords sound call.before).append (.refl _ _)
        have soundBody := sound.after (call.before ++ (call.name ++ ['(']))
        have notEscaped :
            (scan.after (call.before ++ (call.name ++ ['(']))).escaped = false := by
          rw [Scan.after_append, Scan.after_append]
          exact Scan.escaped_step ((sound.after call.before).after call.name) (by decide)
        have ofGroup := (bodyHypothesis soundBody).2 notEscaped
        have ofRest := (afterHypothesis (soundBody.after (call.body ++ [')']))).1 (by decide)
        have joined := ofHead.append (ofGroup.append ofRest)
        simpa using joined
      exact ⟨fun _ => alike, fun _ => closed alike⟩
  | @arguments text parts split ofParts inductionHypothesis =>
      refine ⟨fun isText => absurd rfl isText, fun notEscaped => ?_⟩
      have joined : [','].intercalate (splitTopLevel ',' text) = text :=
        intercalate_splitFrom ',' Scan.start text
      rw [← joined, split]
      exact scan_joined (fun part member scan sound =>
        (inductionHypothesis part member sound).1 (by decide)) sound notEscaped

/-! ## Heads of functions -/

/-- No head begins in a number. -/
theorem firstHead?_number {number : List Char} (areMarks : ∀ c ∈ number, isNumberChar c)
    {previous : Option Char} {rest : List Char}
    (noHead : firstHead? (lastAfter previous number) rest = none) :
    firstHead? previous (number ++ rest) = none := by
  induction number generalizing previous with
  | nil => exact noHead
  | cons c number inductionHypothesis =>
      obtain ⟨isMark, areMarks⟩ := List.forall_mem_cons.mp areMarks
      rw [List.cons_append, firstHead?_cons_eq_none]
      refine ⟨fun _ => ?_, inductionHypothesis areMarks noHead⟩
      cases isHead : functionHead? (c :: (number ++ rest)) with
      | none => rfl
      | some head =>
          obtain ⟨word, rest', same, spells, -⟩ := functionHead?_eq_some_iff.mp isHead
          obtain ⟨nonempty, isWord⟩ := spells.class
          obtain ⟨d, word, rfl⟩ := List.exists_cons_of_ne_nil nonempty
          rw [List.cons_append, List.cons.injEq] at same
          have notMark := (isWord d List.mem_cons_self).2
          rw [← same.1, isMark] at notMark
          cases notMark

/-- No head begins in a word that goes on a name. -/
theorem firstHead?_word {word : List Char} (isName : ∀ c ∈ word, isNameChar c)
    {previous : Option Char} (inName : previous.any isNameChar) {rest : List Char}
    (noHead : firstHead? (lastAfter previous word) rest = none) :
    firstHead? previous (word ++ rest) = none := by
  induction word generalizing previous with
  | nil => exact noHead
  | cons c word inductionHypothesis =>
      obtain ⟨here, later⟩ := List.forall_mem_cons.mp isName
      rw [List.cons_append, firstHead?_cons_eq_none]
      exact ⟨fun outside => absurd inName (by simp [outside]), inductionHypothesis later here noHead⟩

theorem firstHead?_of_append {previous : Option Char} {left right : List Char}
    (noHead : firstHead? previous (left ++ right) = none) :
    firstHead? (lastAfter previous left) right = none := by
  induction left generalizing previous with
  | nil => exact noHead
  | cons c left inductionHypothesis =>
      exact inductionHypothesis (firstHead?_cons_eq_none.mp noHead).2

/-- A word that goes on a name and is ended by a character of none was there before. -/
theorem exists_of_swapAfter_word {previous : Option Char}
    (blocked : quantityMayFollow previous = false) {word : List Char}
    (isName : ∀ c ∈ word, isNameChar c) {c : Char} {text rest' : List Char}
    (same : scheme.swapAfter previous text = word ++ c :: rest') :
    ∃ rest, text = word ++ c :: rest := by
  induction word generalizing previous text with
  | nil =>
      cases text with
      | nil =>
          rw [swapAfter, piecesAfter] at same
          cases same
      | cons d text =>
          rw [swapAfter_cons_of_blocked blocked, List.nil_append, List.cons.injEq] at same
          exact ⟨text, by rw [same.1]; rfl⟩
  | cons d word inductionHypothesis =>
      cases text with
      | nil =>
          rw [swapAfter, piecesAfter] at same
          cases same
      | cons e text =>
          obtain ⟨here, later⟩ := List.forall_mem_cons.mp isName
          rw [swapAfter_cons_of_blocked blocked, List.cons_append, List.cons.injEq] at same
          obtain ⟨rfl, same⟩ := same
          obtain ⟨rest, rfl⟩ :=
            inductionHypothesis (by simp [quantityMayFollow, here]) later same
          exact ⟨rest, rfl⟩

/-- No head of a function begins at a character that is kept, unless one did before. -/
theorem functionHead?_cons_swapAfter {c : Char} {rest : List Char}
    (noHead : functionHead? (c :: rest) = none) :
    functionHead? (c :: scheme.swapAfter (some c) rest) = none := by
  cases isHead : functionHead? (c :: scheme.swapAfter (some c) rest) with
  | none => rfl
  | some head =>
      obtain ⟨word, rest', same, spells, length⟩ := functionHead?_eq_some_iff.mp isHead
      obtain ⟨nonempty, isWord⟩ := spells.class
      obtain ⟨d, word, rfl⟩ := List.exists_cons_of_ne_nil nonempty
      obtain ⟨here, later⟩ := List.forall_mem_cons.mp isWord
      rw [List.cons_append, List.cons.injEq] at same
      obtain ⟨rfl, same⟩ := same
      obtain ⟨rest, rfl⟩ := exists_of_swapAfter_word (by simp [quantityMayFollow, here.1])
        (fun e member => (later e member).1) same
      have inText := functionHead?_eq_some_iff.mpr ⟨c :: word, rest, rfl, spells, length⟩
      rw [List.cons_append, noHead] at inText
      cases inText

/-- A quantity ends with a character of names, with the unit swapped too. -/
theorem lastAfter_targetOf (hasWords : scheme.HasWords) {number unit : List Char}
    (isUnit : ∃ name ∈ scheme.names, dropStartFolded? name unit = some [])
    (other : Option Char) :
    (lastAfter other (number ++ scheme.targetOf unit)).any isNameChar =
      (number ++ unit).getLast?.any isNameChar := by
  obtain ⟨nonempty, isWord⟩ := hasWords.isWord isUnit
  obtain ⟨unitNonempty, unitWord⟩ := class_of_isUnit hasWords.hasNames isUnit
  obtain ⟨x, isX, nameX⟩ := isNameChar_last number nonempty isWord
  obtain ⟨y, isY, nameY⟩ := isNameChar_last number unitNonempty unitWord
  rw [lastAfter_eq_getLast? _ (List.append_ne_nil_of_right_ne_nil _ nonempty),
    Option.mem_def.mp isX, Option.mem_def.mp isY, Option.any_some, Option.any_some, nameX, nameY]

/-- Swapping units makes no head of a function. -/
theorem firstHead?_swapAfter (hasWords : scheme.HasWords) {previous other : Option Char}
    (alike : other.any isNameChar = previous.any isNameChar) {text : List Char}
    (noHead : firstHead? previous text = none) :
    firstHead? other (scheme.swapAfter previous text) = none := by
  have hasNames := hasWords.hasNames
  rw [swapAfter]
  fun_induction piecesAfter scheme.names previous text generalizing other with
  | case1 => rfl
  | case2 previous c rest reading found inductionHypothesis =>
      obtain ⟨-, chosen⟩ := Option.ite_none_right_eq_some.mp found
      have member := List.mem_of_find?_eq_some chosen
      have isRead := isQuantity_of_mem_readings hasNames member
      have isWord := (hasWords.isWord isRead.isUnit).2
      have quantityNonempty := List.append_ne_nil_of_right_ne_nil reading.number
        (class_of_isUnit hasNames isRead.isUnit).1
      rw [← (append_of_mem_readings member).2] at noHead
      have noHeadRest := firstHead?_of_append noHead
      rw [lastAfter_eq_getLast? _ quantityNonempty] at noHeadRest
      obtain ⟨d, isLast, isName⟩ := last_of_isNumber other isRead.isNumber
      have ofRest := inductionHypothesis (lastAfter_targetOf hasWords isRead.isUnit other)
        noHeadRest
      rw [lastAfter_append] at ofRest
      rw [List.flatMap_cons, convertPiece, List.append_assoc]
      apply firstHead?_number (isNumberChar_of_isNumber isRead.isNumber)
      exact firstHead?_word (fun c member => (isWord c member).1) (by rw [isLast]; exact isName)
        ofRest
  | case3 previous c rest found inductionHypothesis =>
      obtain ⟨notHere, notLater⟩ := firstHead?_cons_eq_none.mp noHead
      rw [List.flatMap_cons, convertPiece, List.singleton_append, firstHead?_cons_eq_none]
      exact ⟨fun outside => functionHead?_cons_swapAfter (notHere (alike ▸ outside)),
        inductionHypothesis rfl notLater⟩

theorem HasHead.swapUnits (hasWords : scheme.HasWords) {text before name rest : List Char}
    {function : MathFunction} (hasHead : HasHead none text before name rest function)
    (rest' : List Char) :
    HasHead none (scheme.swapUnits before ++ (name ++ '(' :: rest')) (scheme.swapUnits before) name
      rest' function where
  text_eq := rfl
  spells := hasHead.spells
  notName := ((alike_swapUnits hasWords before).2.lastAfter rfl).trans hasHead.notName
  noHead := firstHead?_swapAfter hasWords rfl hasHead.noHead

/-- Swapping units makes no call. -/
theorem firstCall?_swapUnits (hasWords : scheme.HasWords) {text : List Char}
    (noCall : firstCall? text = none) : firstCall? (scheme.swapUnits text) = none := by
  cases isFirst : firstHead? none text with
  | none =>
      have noHead : firstHead? none (scheme.swapUnits text) = none :=
        firstHead?_swapAfter hasWords rfl isFirst
      rw [firstCall?, noHead]
  | some head =>
      obtain ⟨start, function, length⟩ := head
      obtain ⟨before, name, rest, hasHead, -, -⟩ := firstHead?_eq_some_iff.mp isFirst
      have notClosed := firstCall?_eq_none_iff.mp noCall _ _ _ _ hasHead
      have noNumber : ∀ c ∈ name, isNumberChar c = false := fun c member =>
        (hasHead.spells.class.2 c member).2
      rw [hasHead.text_eq, swapUnits_name hasWords.hasNames hasHead.notName noNumber (by decide)]
      obtain ⟨isHead, -, -, isRest⟩ :=
        (HasHead.swapUnits hasWords hasHead (scheme.swapUnits rest)).firstHead?
      simp only [firstCall?, isHead, isRest,
        closeGroup?_eq_none_congr (skeleton_swapUnits hasWords rest) notClosed]
      rfl

/-! ## Texts -/

/-- What is made of trimmed arguments is split where they were, and is trimmed. -/
theorem split_joined (hasWords : scheme.HasWords) {text : List Char}
    {first : List Char × List Char} {others : List (List Char × List Char)}
    (split : splitTopLevel ',' text = (first :: others).map Prod.fst)
    (ofParts : ∀ part ∈ first :: others, scheme.Arranges .whole (trim part.1) part.2) :
    (splitTopLevel ',' ([',', ' '].intercalate ((first :: others).map Prod.snd)) =
      first.2 :: others.map fun part => ' ' :: part.2) ∧
        ∀ part ∈ first :: others, trim part.2 = part.2 := by
  have sameScan : ∀ part ∈ first :: others, Scan.start.Alike (trim part.1) part.2 :=
    fun part member => ((ofParts part member).scan hasWords Scan.sound_start).1 (by decide)
  have whole : ∀ part ∈ (first :: others).map Prod.snd, isWhole ',' part := by
    refine List.forall_mem_map.mpr fun part member => ?_
    have isPart : part.1 ∈ splitTopLevel ',' text := by
      rw [split]
      exact List.mem_map_of_mem member
    rw [isWhole, (sameScan part member).2]
    exact isWhole_trim (isWhole_of_mem_splitTopLevel isPart)
  have balanced : ((first :: others).map Prod.snd).Pairwise fun part _ => Text.Balanced part := by
    have ofText := pairwise_balanced_splitTopLevel ',' text
    rw [split, List.pairwise_map] at ofText
    rw [List.pairwise_map]
    refine ofText.imp_of_mem fun member _ balanced => ?_
    rw [Text.Balanced, (sameScan _ member).1]
    exact balanced_trim balanced
  constructor
  · rw [List.map_cons] at whole balanced ⊢
    rw [splitTopLevel_intercalate whole balanced, List.map_map]
    rfl
  · intro part member
    exact trim_of_isTrimmed (isTrimmed_of_alike ((ofParts part member).alike hasWords (by decide))
      (isTrimmed_trim part.1))

/-- A text without calls and quantities is arranged to itself. -/
theorem arranges_self (hasNames : scheme.HasNames) {site : Site} (isText : site ≠ .arguments)
    {text : List Char} (noCall : firstCall? text = none)
    (noUnits : unitsOf scheme.names text = []) : scheme.Arranges site text text := by
  have swapped : scheme.Arranges site text (scheme.swapUnits text) :=
    .swap isText noCall fun _ => not_isSum_of_unitsOf hasNames noUnits
  rwa [swapUnits_of_unitsOf noUnits] at swapped

/-- If what is made of each argument is arranged to itself, what is made of them all is, too. -/
theorem arranges_joined (hasWords : scheme.HasWords) {text : List Char}
    {first : List Char × List Char} {others : List (List Char × List Char)}
    (split : splitTopLevel ',' text = (first :: others).map Prod.fst)
    (ofParts : ∀ part ∈ first :: others, scheme.Arranges .whole (trim part.1) part.2)
    (again : ∀ part ∈ first :: others, scheme.Arranges .whole part.2 part.2) :
    scheme.Arranges .arguments ([',', ' '].intercalate ((first :: others).map Prod.snd))
      ([',', ' '].intercalate ((first :: others).map Prod.snd)) := by
  obtain ⟨splitOutput, trimmed⟩ := split_joined hasWords split ofParts
  -- The arguments of the conversion: all but the first have a space in front.
  let spaced := (first.2, first.2) :: others.map fun part => (' ' :: part.2, part.2)
  have splitSpaced : splitTopLevel ',' ([',', ' '].intercalate
      ((first :: others).map Prod.snd)) = spaced.map Prod.fst := by
    rw [splitOutput, List.map_cons, List.map_map]
    rfl
  have ofSpaced : ∀ part ∈ spaced, scheme.Arranges .whole (trim part.1) part.2 := by
    refine List.forall_mem_cons.mpr ⟨?_, List.forall_mem_map.mpr fun part member => ?_⟩
    · rw [trimmed first List.mem_cons_self]
      exact again first List.mem_cons_self
    · have later := List.mem_cons_of_mem first member
      rw [trim_cons_of_isBlank (by decide), trimmed part later]
      exact again part later
  have joined := Arranges.arguments splitSpaced ofSpaced
  simpa [spaced, Function.comp_def] using joined

/-- A text of ASCII that has been arranged is arranged to itself. -/
theorem Arranges.again (settles : scheme.Settles) {site : Site} {text out : List Char}
    (arranges : scheme.Arranges site text out) (ascii : IsAscii text) :
    scheme.Arranges site out out := by
  have hasWords := settles.toHasWords
  have hasNames := settles.hasNames
  induction arranges with
  | swap isText noCall notSum =>
      exact arranges_self hasNames isText (firstCall?_swapUnits hasWords noCall)
        (unitsOf_swapUnits settles ascii)
  | turn turns isRead =>
      exact arranges_self hasNames (by decide)
        (firstCall?_of_skeleton (skeleton_turned hasWords isRead))
        (unitsOf_turned settles isRead (isAscii_sum ascii).1)
  | @call site text body after call isText found ofBody ofAfter bodyHypothesis afterHypothesis =>
      have isFirst := Call.isFirst found
      obtain ⟨asciiBefore, -, asciiBody, asciiAfter⟩ := isAscii_parts isFirst ascii
      have isFirst' : Call.IsFirst
          { call with before := scheme.swapUnits call.before, body := body, after := after }
          (scheme.swapUnits call.before ++ (call.name ++ '(' :: (body ++ ')' :: after))) :=
        ⟨HasHead.swapUnits hasWords isFirst.hasHead _,
          closeGroup?_congr (ofBody.skeleton_eq hasWords) isFirst.closes after⟩
      have called := Arranges.call isText (firstCall?_eq_some_iff.mpr isFirst')
        (bodyHypothesis asciiBody) (afterHypothesis asciiAfter)
      rwa [swapUnits_of_unitsOf (unitsOf_swapUnits settles asciiBefore)] at called
  | @arguments text parts split ofParts inductionHypothesis =>
      have again : ∀ part ∈ parts, scheme.Arranges .whole part.2 part.2 := by
        intro part member
        apply inductionHypothesis part member
        apply isAscii_part _ ascii
        rw [split]
        exact List.mem_map_of_mem member
      obtain ⟨first, others, rfl⟩ : ∃ first others, parts = first :: others := by
        apply List.exists_cons_of_ne_nil
        rintro rfl
        exact splitFrom_ne_nil ',' Scan.start text split
      exact arranges_joined hasWords split ofParts again

end Scheme

end Value

end ContainerPreview
