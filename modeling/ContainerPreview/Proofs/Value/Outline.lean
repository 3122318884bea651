import ContainerPreview.Proofs.Value.Clean

/-!
# The outline of a value

Where the literals of a value are depends on a few of its characters only: the quotes, and
which of them a backslash stands before, the heads of addresses, the closing parentheses, and
the ends of line that a backslash stands before.  These marks, in their order, are the outline
of the value.

Conversion keeps the outline, as long as no backslash stands before an end of line: blanks
are then only taken away where they have no part in it.
-/

namespace ContainerPreview

open Text

namespace Value

/-- A mark in the outline of a value. -/
inductive Mark where
  /-- A quote, which is bare if no backslash takes it. -/
  | quote (quote : Char) (bare : Bool)
  /-- The opening parenthesis of an address. -/
  | address
  /-- A closing parenthesis. -/
  | closing
  /-- An end of line that a backslash takes. -/
  | broken
deriving DecidableEq, Repr

/-- How much of the name `url` has been read: nothing where a name may begin, its letters one
by one, or a name that is another one. -/
inductive Progress where
  | outside
  | u
  | ur
  | url
  | inside
deriving DecidableEq, Repr

namespace Progress

/-- The progress after one more character. -/
def step (progress : Progress) (c : Char) : Progress :=
  if isNameChar c then
    match progress with
    | .outside => if sameLetter 'u' c then .u else .inside
    | .u => if sameLetter 'r' c then .ur else .inside
    | .ur => if sameLetter 'l' c then .url else .inside
    | .url => .inside
    | .inside => .inside
  else .outside

end Progress

/-- Where a reader of a value stands: whether a backslash takes the next character, and how
much of the name of an address has been read. -/
structure Reader where
  escaped : Bool
  progress : Progress
deriving DecidableEq, Repr

namespace Reader

/-- The reader at the start of a value. -/
def start : Reader :=
  { escaped := false, progress := .outside }

/-- The reader in a name that is not the one of an address. -/
def inName : Reader :=
  { escaped := false, progress := .inside }

/-- The reader after one more character. -/
def step (reader : Reader) (c : Char) : Reader :=
  { escaped := !reader.escaped && c == '\\', progress := reader.progress.step c }

/-- The marks that one more character makes. -/
def marks (reader : Reader) (c : Char) : List Mark :=
  if c == '"' || c == '\'' then [.quote c !reader.escaped]
  else if c == ')' then [.closing]
  else if reader.progress == .url && sameLetter '(' c then [.address]
  else if reader.escaped && c == '\n' then [.broken]
  else []

/-- The reader after a text. -/
def after (reader : Reader) (text : List Char) : Reader :=
  text.foldl step reader

/-- The marks of a text. -/
def outline (reader : Reader) : List Char → List Mark
  | [] => []
  | c :: text => reader.marks c ++ outline (reader.step c) text

@[simp]
theorem after_cons (reader : Reader) (c : Char) (text : List Char) :
    reader.after (c :: text) = (reader.step c).after text :=
  rfl

theorem after_append (reader : Reader) (left right : List Char) :
    reader.after (left ++ right) = (reader.after left).after right :=
  List.foldl_append

@[simp]
theorem outline_nil (reader : Reader) : reader.outline [] = [] :=
  rfl

@[simp]
theorem outline_cons (reader : Reader) (c : Char) (text : List Char) :
    reader.outline (c :: text) = reader.marks c ++ (reader.step c).outline text :=
  rfl

theorem outline_append (reader : Reader) (left right : List Char) :
    reader.outline (left ++ right) = reader.outline left ++ (reader.after left).outline right := by
  induction left generalizing reader with
  | nil => rfl
  | cons c left inductionHypothesis => simp [inductionHypothesis]

/-! ## Texts with the same outline -/

/-- Two texts make the same marks, and leave the reader at the same place. -/
def Same (reader : Reader) (text text' : List Char) : Prop :=
  reader.outline text' = reader.outline text ∧ reader.after text' = reader.after text

theorem Same.refl (reader : Reader) (text : List Char) : reader.Same text text :=
  ⟨rfl, rfl⟩

theorem Same.append {reader : Reader} {left left' right right' : List Char}
    (same : reader.Same left left') (sameRight : (reader.after left).Same right right') :
    reader.Same (left ++ right) (left' ++ right') := by
  constructor
  · rw [outline_append, outline_append, same.1, same.2, sameRight.1]
  · rw [after_append, after_append, same.2, sameRight.2]

theorem Same.append_at {reader reader' : Reader} {left left' right right' : List Char}
    (same : reader.Same left left') (isAfter : reader.after left = reader')
    (sameRight : reader'.Same right right') : reader.Same (left ++ right) (left' ++ right') :=
  same.append (by rw [isAfter]; exact sameRight)

/-! ## Characters without a mark -/

/-- The character makes no mark, wherever it stands. -/
def isSilent (c : Char) : Bool :=
  !(c == '"' || c == '\'' || c == ')' || sameLetter '(' c || c == '\n')

theorem marks_of_isSilent (reader : Reader) {c : Char} (silent : isSilent c) :
    reader.marks c = [] := by
  simp only [isSilent, Bool.not_eq_true', Bool.or_eq_false_iff] at silent
  simp [marks, silent]

/-- After a character of no name that is no backslash, the reader starts anew. -/
theorem step_eq_start (reader : Reader) {c : Char} (notName : isNameChar c = false)
    (notBackslash : c ≠ '\\') : reader.step c = start := by
  simp [step, Progress.step, notName, notBackslash, start]

/-- A blank makes no mark, unless it is an end of line that a backslash takes. -/
theorem class_of_isBlank {c : Char} (isAscii : c.toNat < 128) (blank : isBlank c) :
    isNameChar c = false ∧ c ≠ '\\' ∧ (isSilent c ∨ c = '\n') :=
  forall_ascii (fun c => isBlank c → isNameChar c = false ∧ c ≠ '\\' ∧ (isSilent c ∨ c = '\n'))
    (by decide) isAscii blank

theorem marks_of_isBlank (reader : Reader) {c : Char} (isAscii : c.toNat < 128)
    (blank : isBlank c) :
    reader.marks c = if reader.escaped && c == '\n' then [.broken] else [] := by
  obtain ⟨-, -, silent | rfl⟩ := class_of_isBlank isAscii blank
  · rw [marks_of_isSilent reader silent]
    simp only [isSilent, Bool.not_eq_true', Bool.or_eq_false_iff] at silent
    simp [silent.2]
  · have notOpening : sameLetter '(' '\n' = false := by decide
    simp [marks, notOpening]

/-- The reader goes over a text without a mark. -/
def Passes (reader : Reader) (text : List Char) (reader' : Reader) : Prop :=
  reader.outline text = [] ∧ reader.after text = reader'

theorem Passes.append {reader reader' reader'' : Reader} {left right : List Char}
    (passes : reader.Passes left reader') (passesRight : reader'.Passes right reader'') :
    reader.Passes (left ++ right) reader'' := by
  constructor
  · rw [outline_append, passes.1, passes.2, passesRight.1]
    rfl
  · rw [after_append, passes.2, passesRight.2]

theorem Passes.cons {reader reader' : Reader} {c : Char} {text : List Char}
    (noMark : reader.marks c = []) (passes : (reader.step c).Passes text reader') :
    reader.Passes (c :: text) reader' :=
  ⟨by rw [outline_cons, noMark, passes.1]; rfl, passes.2⟩

theorem Passes.same {reader reader' : Reader} {text text' : List Char}
    (passes : reader.Passes text reader') (passes' : reader.Passes text' reader') :
    reader.Same text text' :=
  ⟨passes'.1.trans passes.1.symm, passes'.2.trans passes.2.symm⟩

/-- Blanks pass at the start. -/
theorem passes_blanks {blanks : List Char} (ascii : IsAscii blanks)
    (areBlank : ∀ c ∈ blanks, isBlank c) : start.Passes blanks start := by
  induction blanks with
  | nil => exact ⟨rfl, rfl⟩
  | cons c blanks inductionHypothesis =>
      obtain ⟨isAscii, ascii⟩ := List.forall_mem_cons.mp ascii
      rw [List.forall_mem_cons] at areBlank
      obtain ⟨notName, notBackslash, -⟩ := class_of_isBlank isAscii areBlank.1
      apply Passes.cons (marks_of_isBlank start isAscii areBlank.1)
      rw [step_eq_start start notName notBackslash]
      exact inductionHypothesis ascii areBlank.2

/-- Blanks make no mark unless they begin with an end of line that a backslash takes. -/
theorem outline_of_blanks (reader : Reader) {blanks : List Char} (ascii : IsAscii blanks)
    (areBlank : ∀ c ∈ blanks, isBlank c) (notBroken : .broken ∉ reader.outline blanks) :
    reader.outline blanks = [] := by
  cases blanks with
  | nil => rfl
  | cons c blanks =>
      obtain ⟨isAscii, ascii⟩ := List.forall_mem_cons.mp ascii
      rw [List.forall_mem_cons] at areBlank
      obtain ⟨notName, notBackslash, -⟩ := class_of_isBlank isAscii areBlank.1
      rw [outline_cons, step_eq_start reader notName notBackslash,
        (passes_blanks ascii areBlank.2).1, List.append_nil,
        marks_of_isBlank reader isAscii areBlank.1] at notBroken ⊢
      split
      · rename_i broken
        rw [if_pos broken] at notBroken
        exact absurd List.mem_cons_self notBroken
      · rfl

/-- Blanks in front of a character that starts anew. -/
theorem passes_blanks_append {reader : Reader} (notEscaped : reader.escaped = false)
    {blanks : List Char} (ascii : IsAscii blanks) (areBlank : ∀ c ∈ blanks, isBlank c) {c : Char}
    (silent : isSilent c) (notName : isNameChar c = false) (notBackslash : c ≠ '\\') :
    reader.Passes (blanks ++ [c]) start := by
  have passesLast : ∀ reader : Reader, reader.Passes [c] start := fun reader =>
    Passes.cons (marks_of_isSilent reader silent)
      ⟨rfl, step_eq_start reader notName notBackslash⟩
  cases blanks with
  | nil => exact passesLast reader
  | cons blank blanks =>
      obtain ⟨isAscii, ascii⟩ := List.forall_mem_cons.mp ascii
      rw [List.forall_mem_cons] at areBlank
      obtain ⟨notName', notBackslash', -⟩ := class_of_isBlank isAscii areBlank.1
      apply Passes.cons
      · rw [marks_of_isBlank reader isAscii areBlank.1, notEscaped]
        rfl
      · rw [step_eq_start reader notName' notBackslash']
        exact (passes_blanks ascii areBlank.2).append (passesLast start)

/-! ## Numbers and units -/

theorem passes_of_isSilent (reader : Reader) {text : List Char}
    (silent : ∀ c ∈ text, isSilent c) : reader.Passes text (reader.after text) := by
  induction text generalizing reader with
  | nil => exact ⟨rfl, rfl⟩
  | cons c text inductionHypothesis =>
      obtain ⟨here, later⟩ := List.forall_mem_cons.mp silent
      exact Passes.cons (marks_of_isSilent reader here) (inductionHypothesis (reader.step c) later)

theorem isSilent_of_isNumberChar {c : Char} (isAscii : c.toNat < 128) (isNumber : isNumberChar c) :
    isSilent c :=
  forall_ascii (fun c => isNumberChar c → isSilent c) (by decide) isAscii isNumber

/-- After a digit the reader is in a name, and no address begins there. -/
theorem step_of_isDigit (reader : Reader) {c : Char} (isAscii : c.toNat < 128)
    (digit : isDigit c) : reader.step c = inName := by
  obtain ⟨name, notBackslash, notU, notR, notL⟩ := forall_ascii
    (fun c => isDigit c → isNameChar c ∧ c ≠ '\\' ∧ sameLetter 'u' c = false ∧
      sameLetter 'r' c = false ∧ sameLetter 'l' c = false) (by decide) isAscii digit
  cases progress : reader.progress <;>
    simp [step, Progress.step, inName, name, notBackslash, notU, notR, notL, progress]

/-- A number passes, and what follows it goes on a name. -/
theorem passes_number (reader : Reader) {number : List Char} (ascii : IsAscii number)
    (isNumber : isNumber number) : reader.Passes number inName := by
  have passes := passes_of_isSilent reader fun c member =>
    isSilent_of_isNumberChar (ascii c member) (isNumberChar_of_isNumber isNumber c member)
  obtain ⟨start, d, rfl⟩ :=
    (List.eq_nil_or_concat' number).resolve_left (nonempty_of_isNumber isNumber)
  obtain ⟨e, isAt, digit⟩ :=
    exists_digit_of_mem_numberLengths (length_mem_of_isNumber isNumber)
  have isLast : d = e := by
    rw [List.length_append, List.length_singleton, Nat.add_sub_cancel,
      List.getElem?_concat_length] at isAt
    exact Option.some.inj isAt
  have atDigit : (reader.after start).step d = inName :=
    step_of_isDigit _ (ascii d (by simp)) (isLast ▸ digit)
  rw [after_append] at passes
  exact ⟨passes.1, passes.2.trans atDigit⟩

theorem class_of_letter {c : Char} (isAlpha : c.isAlpha) : isSilent c ∧ c ≠ '\\' :=
  forall_ascii (fun c => c.isAlpha → isSilent c ∧ c ≠ '\\') (by decide)
    (toNat_of_isAlpha isAlpha) isAlpha

/-- Letters pass inside a name. -/
theorem passes_letters {letters : List Char} (isAlpha : ∀ c ∈ letters, c.isAlpha) :
    inName.Passes letters inName := by
  induction letters with
  | nil => exact ⟨rfl, rfl⟩
  | cons c letters inductionHypothesis =>
      rw [List.forall_mem_cons] at isAlpha
      obtain ⟨silent, notBackslash⟩ := class_of_letter isAlpha.1
      have stays : inName.step c = inName := by
        simp [step, Progress.step, inName, notBackslash, (class_of_isAlpha isAlpha.1).1]
      apply Passes.cons (marks_of_isSilent inName silent)
      rw [stays]
      exact inductionHypothesis isAlpha.2

/-- A quantity passes, with whatever unit. -/
theorem passes_quantity (reader : Reader) {number unit : List Char} (ascii : IsAscii number)
    (isNumber : isNumber number) (isAlpha : ∀ c ∈ unit, c.isAlpha) :
    reader.Passes (number ++ unit) inName :=
  (passes_number reader ascii isNumber).append (passes_letters isAlpha)

end Reader

/-! ## Conversion keeps the outline -/

open Reader

section Settled

variable {scheme : Scheme}

theorem isAlpha_of_matches {units : List (List Char)} (names : ∀ unit ∈ units, IsUnitName unit)
    {unit : List Char} (isUnit : ∃ name ∈ units, dropStartFolded? name unit = some [])
    (ascii : IsAscii unit) : ∀ c ∈ unit, c.isAlpha := by
  obtain ⟨name, isName, whole⟩ := isUnit
  exact (lower_of_matches (names name isName).2 whole ascii).2

theorem isAlpha_targetOf (settles : scheme.Settles) {unit : List Char}
    (isUnit : ∃ name ∈ scheme.names, dropStartFolded? name unit = some []) (ascii : IsAscii unit) :
    ∀ c ∈ scheme.targetOf unit, c.isAlpha := fun c member =>
  isAlpha_of_isLower ((settles.targetOf isUnit ascii).1 c member)

theorem same_convertPiece (settles : scheme.Settles) (reader : Reader) {piece : Piece}
    (ascii : IsAscii piece.text)
    (isQuantity : ∀ number unit, piece = .quantity number unit →
      IsQuantity scheme.names number unit) : reader.Same piece.text (scheme.convertPiece piece) := by
  cases piece with
  | plain c => exact Same.refl reader [c]
  | quantity number unit =>
      have isRead := isQuantity number unit rfl
      obtain ⟨asciiNumber, asciiUnit⟩ := List.forall_mem_append.mp ascii
      have passes : reader.Passes (number ++ unit) inName :=
        passes_quantity reader asciiNumber isRead.isNumber
          (isAlpha_of_matches settles.hasNames isRead.isUnit asciiUnit)
      exact passes.same (passes_quantity reader asciiNumber isRead.isNumber
        (isAlpha_targetOf settles isRead.isUnit asciiUnit))

/-- Swapping units keeps the outline, wherever the text stands. -/
theorem same_swapUnits (settles : scheme.Settles) (reader : Reader) {text : List Char}
    (ascii : IsAscii text) : reader.Same text (scheme.swapUnits text) := by
  have ofPieces : ∀ pieces : List Piece, (∀ number unit, .quantity number unit ∈ pieces →
      IsQuantity scheme.names number unit) → IsAscii (pieces.flatMap Piece.text) →
        ∀ reader : Reader,
          reader.Same (pieces.flatMap Piece.text) (pieces.flatMap scheme.convertPiece) := by
    intro pieces areRead ascii
    induction pieces with
    | nil => exact fun reader => Same.refl reader []
    | cons piece pieces inductionHypothesis =>
        obtain ⟨asciiPiece, asciiRest⟩ := List.forall_mem_append.mp ascii
        intro reader
        have ofPiece := same_convertPiece settles reader asciiPiece fun number unit same =>
          areRead number unit (same ▸ List.mem_cons_self)
        exact ofPiece.append (inductionHypothesis (fun number unit member =>
          areRead number unit (List.mem_cons_of_mem _ member)) asciiRest _)
  have isText : (pieces scheme.names text).flatMap Piece.text = text :=
    flatMap_text_piecesAfter _ _ _
  have same := ofPieces (pieces scheme.names text) (fun number unit member =>
    isQuantity_of_mem_piecesAfter settles.hasNames member) (by rwa [isText]) reader
  rwa [isText] at same

/-- Turning a sum around keeps the outline. -/
theorem same_turned (settles : scheme.Settles) {sum : FluidSum}
    (isRead : sum.IsRead scheme.names) (ascii : IsAscii sum.text) :
    start.Same sum.text (sum.turned scheme) := by
  have inText : ∀ part : List Char, (∀ c ∈ part, c ∈ sum.text) → IsAscii part :=
    fun part within c member => ascii c (within c member)
  have asciiLeft := inText sum.left fun c member => by simp [FluidSum.text, member]
  have asciiNumber := inText sum.number fun c member => by simp [FluidSum.text, member]
  have asciiBefore := inText sum.beforePlus fun c member => by
    simp [FluidSum.text, FluidSum.addend, member]
  have asciiAfter := inText sum.afterPlus fun c member => by
    simp [FluidSum.text, FluidSum.addend, member]
  have asciiSize := inText sum.size fun c member => by
    simp [FluidSum.text, FluidSum.addend, member]
  obtain ⟨asciiUnit, asciiRem⟩ := Scheme.isAscii_sum ascii
  have left : start.Passes sum.left start := passes_blanks asciiLeft isRead.left
  have ofNumber : start.Passes (sum.number ++ sum.unit) inName :=
    passes_quantity start asciiNumber isRead.quantity.isNumber
      (isAlpha_of_matches settles.hasNames isRead.quantity.isUnit asciiUnit)
  have ofPlus : inName.Passes (sum.beforePlus ++ ['+']) start :=
    passes_blanks_append rfl asciiBefore isRead.beforePlus (by decide) (by decide) (by decide)
  have ofSize : start.Passes (sum.size ++ sum.rem) inName :=
    passes_quantity start asciiSize isRead.size.isNumber
      (isAlpha_of_matches isUnitName_remUnit isRead.size.isUnit asciiRem)
  have written : start.Passes (sum.left ++ (sum.number ++ sum.unit ++ sum.addend)) inName := by
    have inside := (ofNumber.append ofPlus).append
      ((passes_blanks asciiAfter isRead.afterPlus).append ofSize)
    simpa [FluidSum.addend] using left.append inside
  have turned : start.Passes (sum.left ++ (sum.size ++ remUnit ++
      ' ' :: '+' :: ' ' :: (sum.number ++ scheme.targetOf sum.unit))) inName := by
    have ofRem : start.Passes (sum.size ++ remUnit) inName :=
      passes_quantity start asciiSize isRead.size.isNumber (by decide)
    have ofPlus : inName.Passes [' ', '+', ' '] start := by
      constructor <;> decide
    have ofNumber : start.Passes (sum.number ++ scheme.targetOf sum.unit) inName :=
      passes_quantity start asciiNumber isRead.quantity.isNumber
        (isAlpha_targetOf settles isRead.quantity.isUnit asciiUnit)
    simpa using left.append ((ofRem.append ofPlus).append ofNumber)
  exact (written.same turned).append (Same.refl _ sum.right)

/-! ## Conversion call by call -/

/-- No backslash of the text takes an end of line. -/
def Unbroken (text : List Char) : Prop :=
  .broken ∉ start.outline text

/-- No backslash takes an end of line in a text.  The flag tells whether one takes the first
character. -/
def isUnbroken (escaped : Bool) : List Char → Bool
  | [] => true
  | c :: text => !(escaped && c == '\n') && isUnbroken (!escaped && c == '\\') text

theorem broken_mem_marks {reader : Reader} {c : Char} :
    .broken ∈ reader.marks c ↔ reader.escaped ∧ c = '\n' := by
  have notOpening : sameLetter '(' '\n' = false := by decide
  constructor
  · unfold marks
    repeat' split
    all_goals simp_all
  · rintro ⟨escaped, rfl⟩
    simp [marks, notOpening, escaped]

theorem isUnbroken_iff {reader : Reader} {text : List Char} :
    isUnbroken reader.escaped text ↔ .broken ∉ reader.outline text := by
  induction text generalizing reader with
  | nil => simp [isUnbroken]
  | cons c text inductionHypothesis =>
      rw [outline_cons, List.mem_append, not_or, broken_mem_marks, ← inductionHypothesis,
        isUnbroken, step, Bool.and_eq_true, Bool.not_eq_true', Bool.and_eq_false_iff]
      cases reader.escaped <;> simp

theorem Unbroken.of_append {left right : List Char} (unbroken : Unbroken (left ++ right)) :
    Unbroken left := by
  intro broken
  apply unbroken
  rw [outline_append]
  exact List.mem_append_left _ broken

theorem unbroken_append {left right : List Char} (anew : start.after left = start) :
    Unbroken (left ++ right) ↔ Unbroken left ∧ Unbroken right := by
  rw [Unbroken, outline_append, anew, List.mem_append, not_or]
  rfl

/-- An argument, with the character that it is ended by, keeps its outline if its trimmed form
does. -/
theorem same_trim {argument converted : List Char} {c : Char} (ascii : IsAscii argument)
    (unbroken : Unbroken argument) (same : start.Same (trim argument) converted)
    (anew : ∀ reader : Reader, reader.step c = start)
    (alike : ∀ reader : Reader, reader.marks c = start.marks c) :
    start.Same (argument ++ [c]) (converted ++ [c]) := by
  obtain ⟨left, right, isArgument, leftBlank, rightBlank⟩ := exists_append_trim argument
  rw [isArgument] at ascii unbroken
  obtain ⟨fromLeft, asciiRight⟩ := List.forall_mem_append.mp ascii
  obtain ⟨asciiLeft, -⟩ := List.forall_mem_append.mp fromLeft
  have ofLeft := passes_blanks asciiLeft leftBlank
  have ofRight : ((start.after (trim argument)).outline right) = [] := by
    apply outline_of_blanks _ asciiRight rightBlank
    intro broken
    apply unbroken
    rw [outline_append, after_append, ofLeft.2]
    exact List.mem_append_right _ broken
  constructor
  · rw [isArgument, outline_append, outline_append, outline_append, outline_append, after_append,
      ofLeft.1, ofLeft.2, ofRight, same.1]
    simp [alike]
  · rw [after_append, after_append]
    simp [anew]

theorem anew_of_closing (reader : Reader) :
    reader.step ')' = start ∧ reader.marks ')' = start.marks ')' :=
  ⟨step_eq_start reader (by decide) (by decide), rfl⟩

theorem anew_of_comma (reader : Reader) :
    reader.step ',' = start ∧ reader.marks ',' = start.marks ',' :=
  ⟨step_eq_start reader (by decide) (by decide), by
    rw [marks_of_isSilent reader (by decide), marks_of_isSilent start (by decide)]⟩

theorem isAscii_trim {text : List Char} (ascii : IsAscii text) : IsAscii (trim text) :=
  fun c member => ascii c (mem_of_mem_trim member)

theorem unbroken_trim {argument : List Char} (ascii : IsAscii argument)
    (unbroken : Unbroken argument) : Unbroken (trim argument) := by
  obtain ⟨left, right, isArgument, leftBlank, -⟩ := exists_append_trim argument
  rw [isArgument] at ascii unbroken
  have asciiLeft := (List.forall_mem_append.mp (List.forall_mem_append.mp ascii).1).1
  exact ((unbroken_append (passes_blanks asciiLeft leftBlank).2).mp unbroken.of_append).2

/-- Arguments keep their outline when they are trimmed and joined, with the parenthesis that closes
them. -/
theorem same_joined {parts : List (List Char × List Char)}
    (ascii : IsAscii ([','].intercalate (parts.map Prod.fst)))
    (unbroken : Unbroken ([','].intercalate (parts.map Prod.fst)))
    (same : ∀ part ∈ parts, IsAscii (trim part.1) → Unbroken (trim part.1) →
      start.Same (trim part.1) part.2) :
    start.Same ([','].intercalate (parts.map Prod.fst) ++ [')'])
      ([',', ' '].intercalate (parts.map Prod.snd) ++ [')']) := by
  induction parts with
  | nil => exact Same.refl start _
  | cons first parts inductionHypothesis =>
      obtain ⟨here, later⟩ := List.forall_mem_cons.mp same
      cases parts with
      | nil =>
          rw [List.map_singleton, List.intercalate_singleton] at ascii unbroken ⊢
          rw [List.map_singleton, List.intercalate_singleton]
          exact same_trim ascii unbroken (here (isAscii_trim ascii) (unbroken_trim ascii unbroken))
            (fun reader => (anew_of_closing reader).1) fun reader => (anew_of_closing reader).2
      | cons second parts =>
          have isJoined : [','].intercalate ((first :: second :: parts).map Prod.fst) =
              first.1 ++ [','] ++ [','].intercalate ((second :: parts).map Prod.fst) :=
            List.intercalate_cons_cons
          rw [isJoined] at ascii unbroken
          obtain ⟨fromFirst, asciiRest⟩ := List.forall_mem_append.mp ascii
          have asciiFirst : IsAscii first.1 := (List.forall_mem_append.mp fromFirst).1
          have afterComma : start.after (first.1 ++ [',']) = start := by
            rw [after_append]
            exact (anew_of_comma _).1
          rw [unbroken_append afterComma] at unbroken
          have unbrokenFirst : Unbroken first.1 := unbroken.1.of_append
          have ofFirst : start.Same (first.1 ++ [',']) (first.2 ++ [',']) :=
            same_trim asciiFirst unbrokenFirst
              (here (isAscii_trim asciiFirst) (unbroken_trim asciiFirst unbrokenFirst))
              (fun reader => (anew_of_comma reader).1) fun reader => (anew_of_comma reader).2
          have ofSpace : start.Same [] [' '] := by
            constructor <;> decide
          have ofRest := inductionHypothesis asciiRest unbroken.2 later
          have joined := ofFirst.append_at afterComma (ofSpace.append ofRest)
          simpa using joined

/-- A call keeps its outline if its parts do. -/
theorem same_call (settles : scheme.Settles)
    {before name body body' after after' : List Char} (asciiBefore : IsAscii before)
    (ofBody : Unbroken body → start.Same (body ++ [')']) (body' ++ [')']))
    (ofAfter : Unbroken after → start.Same after after')
    (unbroken : Unbroken (before ++ (name ++ '(' :: (body ++ ')' :: after)))) :
    start.Same (before ++ (name ++ '(' :: (body ++ ')' :: after)))
      (scheme.swapUnits before ++ (name ++ '(' :: (body' ++ ')' :: after'))) := by
  have regroup : ∀ before body after : List Char,
      before ++ (name ++ '(' :: (body ++ ')' :: after)) =
        (before ++ (name ++ ['('])) ++ ((body ++ [')']) ++ after) := by simp
  have afterName : start.after (before ++ (name ++ ['('])) = start := by
    rw [after_append, after_append]
    exact step_eq_start _ (by decide) (by decide)
  have afterBody : start.after (body ++ [')']) = start := by
    rw [after_append]
    exact (anew_of_closing _).1
  rw [regroup, unbroken_append afterName, unbroken_append afterBody] at unbroken
  obtain ⟨-, unbrokenBody, unbrokenAfter⟩ := unbroken
  have ofName :
      start.Same (before ++ (name ++ ['('])) (scheme.swapUnits before ++ (name ++ ['('])) :=
    (same_swapUnits settles start asciiBefore).append (Same.refl _ _)
  have ofRest := (ofBody unbrokenBody.of_append).append_at afterBody (ofAfter unbrokenAfter)
  rw [regroup, regroup]
  exact ofName.append_at afterName ofRest

/-- Conversion keeps the outline of a text in which no backslash takes an end of line; that of
arguments it keeps with the parenthesis that closes them. -/
theorem Scheme.Arranges.same (settles : scheme.Settles) {site : Site} {text out : List Char}
    (arranges : scheme.Arranges site text out) (ascii : IsAscii text)
    (unbroken : Unbroken text) :
    (site ≠ .arguments → start.Same text out) ∧ start.Same (text ++ [')']) (out ++ [')']) := by
  have closed : ∀ {text out : List Char}, start.Same text out →
      start.Same (text ++ [')']) (out ++ [')']) := fun same => same.append (Same.refl _ _)
  induction arranges with
  | swap =>
      have same := same_swapUnits settles start ascii
      exact ⟨fun _ => same, closed same⟩
  | turn turns isRead =>
      have same := same_turned settles isRead ascii
      exact ⟨fun _ => same, closed same⟩
  | @call site text body after call isText found ofBody ofAfter bodyHypothesis afterHypothesis =>
      obtain ⟨asciiBefore, -, asciiBody, asciiAfter⟩ := Scheme.isAscii_parts (Call.isFirst found) ascii
      have isText := (Call.isFirst found).hasHead.text_eq
      rw [isText] at unbroken
      have same := same_call settles asciiBefore
        (fun unbrokenBody => (bodyHypothesis asciiBody unbrokenBody).2)
        (fun unbrokenAfter => (afterHypothesis asciiAfter unbrokenAfter).1 (by decide)) unbroken
      rw [← isText] at same
      exact ⟨fun _ => same, closed same⟩
  | @arguments text parts split ofParts inductionHypothesis =>
      refine ⟨fun isText => absurd rfl isText, ?_⟩
      have joined : [','].intercalate (splitTopLevel ',' text) = text :=
        intercalate_splitFrom ',' Scan.start text
      rw [← joined, split] at ascii unbroken ⊢
      exact same_joined ascii unbroken fun part member asciiPart unbrokenPart =>
        (inductionHypothesis part member asciiPart unbrokenPart).1 (by decide)

end Settled

end Value

end ContainerPreview
