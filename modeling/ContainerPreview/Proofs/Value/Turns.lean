import ContainerPreview.Proofs.Text.Paren
import ContainerPreview.Proofs.Value.Calls

/-!
# Taking a text apart turn by turn

A text is converted in turns, each at a position in it.  A turn finds the next head of a function
and the parenthesis that closes it, and the next turn begins after that parenthesis.  So the
position grows with every turn by the head and the closing parenthesis at least, and what is
converted within the call is shorter than the text.

The turns divide the text into stretches, each of which begins where the one before it ends.  The
converted text consists of these stretches, each converted once and in its place.
-/

namespace ContainerPreview

open Text

namespace Value

variable {text : List Char} {position : Nat}

/-! ## Turns -/

/-- A turn: a function whose name starts at an index, and the indices of its parentheses. -/
structure Turn where
  function : MathFunction
  start : Nat
  opening : Nat
  closing : Nat
deriving DecidableEq, Repr

/-- The turn at a position, if there is a head of a function after it that is closed.  A name that
goes on from before the position is none. -/
def turnAt? (text : List Char) (position : Nat) : Option Turn :=
  match firstHead? (text.take position).getLast? (text.drop position) with
  | none => none
  | some (skipped, function, length) =>
      let start := position + skipped
      (closingParen? text (start + length)).map fun closing =>
        { function, start, opening := start + length, closing }

namespace Turn

/-- The name of the function as it is written. -/
def name (turn : Turn) (text : List Char) : List Char :=
  slice text turn.start turn.opening

/-- The text between the parentheses. -/
def body (turn : Turn) (text : List Char) : List Char :=
  slice text (turn.opening + 1) turn.closing

/-- What a turn at a position is. -/
structure IsAt (turn : Turn) (text : List Char) (position : Nat) : Prop where
  le_start : position ≤ turn.start
  opening_eq : turn.opening = turn.start + turn.function.name.length
  spells : turn.function.Spells (turn.name text)
  isOpening : text[turn.opening]? = some '('
  closesAt : ClosesAt text turn.opening turn.closing

end Turn

theorem MathFunction.Spells.length {function : MathFunction} {word : List Char}
    (spells : function.Spells word) : word.length = function.name.length :=
  length_of_dropStartFolded? spells

theorem isAt_of_turnAt? {turn : Turn} (found : turnAt? text position = some turn) :
    turn.IsAt text position := by
  unfold turnAt? at found
  split at found
  · cases found
  · rename_i skipped function length isHead
    obtain ⟨closing, isClosing, rfl⟩ := Option.map_eq_some_iff.mp found
    obtain ⟨before, name, rest, hasHead, rfl, rfl⟩ := firstHead?_eq_some_iff.mp isHead
    have fromName := drop_add_of_drop hasHead.text_eq
    have fromOpening := drop_add_of_drop fromName
    have isOpening : text[position + before.length + name.length]? = some '(' := by
      rw [← List.head?_drop, fromOpening, List.head?_cons]
    refine ⟨Nat.le_add_right _ _, ?_, ?_, isOpening, ?_⟩
    · rw [hasHead.spells.length]
    · rw [Turn.name, slice_of_drop fromName]
      exact hasHead.spells
    · exact (closingParen?_eq_some_iff isOpening).mp isClosing

namespace Turn.IsAt

variable {turn : Turn}

/-- A turn takes the head of a function and its closing parenthesis at least, and stays in the
text. -/
theorem advances (isAt : turn.IsAt text position) :
    position + turn.function.name.length + 2 ≤ turn.closing + 1 ∧ turn.closing < text.length := by
  have isBehind := (isAt.closesAt.closes isAt.isOpening).1
  have isStart := isAt.opening_eq
  have isAfter := isAt.le_start
  exact ⟨by omega, isAt.closesAt.within⟩

/-- The body is shorter than what the text has from the position on. -/
theorem length_body_lt (isAt : turn.IsAt text position) :
    (turn.body text).length + position < text.length := by
  have isBehind := (isAt.closesAt.closes isAt.isOpening).1
  have bodyLe := length_slice_le text (turn.opening + 1) turn.closing
  have advances := isAt.advances
  have isStart := isAt.opening_eq
  have isAfter := isAt.le_start
  rw [← Turn.body] at bodyLe
  omega

/-- What is converted of a body is no longer than the body. -/
theorem length_argument_lt (isAt : turn.IsAt text position) {argument : List Char}
    (member : argument ∈ splitTopLevel ',' (turn.body text)) :
    (trim argument).length + position < text.length := by
  have bodyLt := isAt.length_body_lt
  have argumentLe := length_le_of_mem_splitTopLevel member
  have trimmedLe := length_trim_le argument
  omega

end Turn.IsAt

/-! ## Stretches -/

/-- How a stretch of a text is converted. -/
inductive Role where
  /-- Outside calls. -/
  | plain
  /-- The head of a call, or its closing parenthesis. -/
  | kept
  /-- The body of a call. -/
  | body (function : MathFunction)
  /-- After the last call, or all of a text without calls. -/
  | rest (whole : Bool)
deriving DecidableEq, Repr

/-- A stretch of a text from one index up to another one. -/
structure Stretch where
  role : Role
  start : Nat
  stop : Nat
deriving DecidableEq, Repr

/-- The text of a stretch. -/
def Stretch.part (stretch : Stretch) (text : List Char) : List Char :=
  slice text stretch.start stretch.stop

/-- What a turn at a position takes. -/
def Turn.stretches (turn : Turn) (position : Nat) : List Stretch :=
  [⟨.plain, position, turn.start⟩, ⟨.kept, turn.start, turn.opening + 1⟩,
    ⟨.body turn.function, turn.opening + 1, turn.closing⟩,
    ⟨.kept, turn.closing, turn.closing + 1⟩]

/-- The stretches of a text from a position on. -/
def stretchesFrom (text : List Char) (position : Nat) : List Stretch :=
  match _found : turnAt? text position with
  | none => [⟨.rest (position == 0), position, text.length⟩]
  | some turn => turn.stretches position ++ stretchesFrom text (turn.closing + 1)
termination_by text.length - position
decreasing_by
  have advances := (isAt_of_turnAt? _found).advances
  omega

/-- Stretches go from one index to another one without a gap or an overlap. -/
def Tiles : Nat → List Stretch → Nat → Prop
  | start, [], stop => start = stop
  | start, stretch :: stretches, stop =>
      stretch.start = start ∧ start ≤ stretch.stop ∧ Tiles stretch.stop stretches stop

theorem Tiles.append {start middle stop : Nat} {stretches later : List Stretch}
    (tiles : Tiles start stretches middle) (laterTiles : Tiles middle later stop) :
    Tiles start (stretches ++ later) stop := by
  induction stretches generalizing start with
  | nil =>
      obtain rfl : start = middle := tiles
      exact laterTiles
  | cons stretch stretches inductionHypothesis =>
      exact ⟨tiles.1, tiles.2.1, inductionHypothesis tiles.2.2⟩

theorem Tiles.le {start stop : Nat} {stretches : List Stretch}
    (tiles : Tiles start stretches stop) : start ≤ stop := by
  induction stretches generalizing start with
  | nil => exact Nat.le_of_eq tiles
  | cons stretch stretches inductionHypothesis =>
      exact Nat.le_trans tiles.2.1 (inductionHypothesis tiles.2.2)

/-- The stretches make up the text that they go over. -/
theorem Tiles.flatMap_part {start stop : Nat} {stretches : List Stretch}
    (tiles : Tiles start stretches stop) :
    (stretches.flatMap fun stretch => stretch.part text) = slice text start stop := by
  induction stretches generalizing start with
  | nil =>
      obtain rfl : start = stop := tiles
      simp [slice]
  | cons stretch stretches inductionHypothesis =>
      obtain ⟨rfl, le, laterTiles⟩ := tiles
      rw [List.flatMap_cons, inductionHypothesis laterTiles, Stretch.part,
        slice_append_slice le laterTiles.le]

theorem Turn.IsAt.tiles {turn : Turn} (isAt : turn.IsAt text position) :
    Tiles position (turn.stretches position) (turn.closing + 1) := by
  have isBehind := (isAt.closesAt.closes isAt.isOpening).1
  have startLe : turn.start ≤ turn.opening + 1 := by
    have isStart := isAt.opening_eq
    omega
  exact ⟨rfl, isAt.le_start, rfl, startLe, rfl, isBehind, rfl, Nat.le_succ _, rfl⟩

theorem tiles_stretchesFrom (le : position ≤ text.length) :
    Tiles position (stretchesFrom text position) text.length := by
  fun_induction stretchesFrom text position with
  | case1 position _ => exact ⟨rfl, le, rfl⟩
  | case2 position turn found inductionHypothesis =>
      have isAt := isAt_of_turnAt? found
      exact isAt.tiles.append (inductionHypothesis isAt.advances.2)

/-! ## Turns and calls -/

/-- The turn at a position that a call in the text after it is. -/
def Turn.ofCall (position : Nat) (call : Call) : Turn where
  function := call.function
  start := position + call.before.length
  opening := position + call.before.length + call.name.length
  closing := position + call.before.length + call.name.length + (call.body.length + 1)

theorem firstHead?_of_notName {previous : Option Char} (notName : previous.any isNameChar = false)
    (text : List Char) : firstHead? previous text = firstHead? none text := by
  cases text with
  | nil => rfl
  | cons c text =>
      rw [firstHead?, firstHead?, notName]
      rfl

/-- Where no name goes on, the turn at a position is the first call in the text after it. -/
theorem turnAt?_eq (notName : (text.take position).getLast?.any isNameChar = false) :
    turnAt? text position = (firstCall? (text.drop position)).map (Turn.ofCall position) := by
  rw [turnAt?, firstHead?_of_notName notName]
  cases isHead : firstHead? none (text.drop position) with
  | none => simp only [firstCall?, isHead, Option.map_none]
  | some head =>
      obtain ⟨skipped, function, length⟩ := head
      obtain ⟨before, name, rest, hasHead, rfl, rfl⟩ := firstHead?_eq_some_iff.mp isHead
      obtain ⟨-, isBefore, isName, isRest⟩ := hasHead.firstHead?
      have fromOpening := drop_add_of_drop (drop_add_of_drop hasHead.text_eq)
      simp only [firstCall?, isHead, isBefore, isName, isRest, closeGroup?,
        closingParen?_of_drop fromOpening, Option.map_map]
      cases found : closingFrom 1 rest with
      | none => rfl
      | some stop =>
          have isLength : (rest.take stop).length = stop := by
            rw [List.length_take, Nat.min_eq_left (Nat.le_of_lt (closingFrom_lt_length found))]
          simp [Turn.ofCall, isLength]

/-- The slices of a turn are the parts of the call. -/
theorem Call.IsFirst.slices {call : Call} (isFirst : call.IsFirst (text.drop position)) :
    slice text position (Turn.ofCall position call).start = call.before ∧
      (Turn.ofCall position call).name text = call.name ∧
      slice text (Turn.ofCall position call).start ((Turn.ofCall position call).opening + 1) =
        call.name ++ ['('] ∧
      (Turn.ofCall position call).body text = call.body ∧
      slice text (Turn.ofCall position call).closing ((Turn.ofCall position call).closing + 1) =
        [')'] ∧
      text.drop ((Turn.ofCall position call).closing + 1) = call.after := by
  have fromBefore := isFirst.hasHead.text_eq
  have fromName := drop_add_of_drop fromBefore
  have fromHead : text.drop (position + call.before.length) =
      (call.name ++ ['(']) ++ (call.body ++ ')' :: call.after) := by
    rw [fromName, List.append_assoc]
    rfl
  have fromBody := drop_add_of_drop fromHead
  have fromClosing : text.drop _ = [')'] ++ call.after := drop_add_of_drop fromBody
  have isHead := slice_of_drop fromHead
  have isBody := slice_of_drop fromBody
  have isClosing := slice_of_drop fromClosing
  have isAfter := drop_add_of_drop fromClosing
  simp only [List.length_append, List.length_singleton] at isHead isBody isClosing isAfter
  have same : position + call.before.length + (call.name.length + 1) + call.body.length =
      (Turn.ofCall position call).closing := by
    simp only [Turn.ofCall]
    omega
  rw [same] at isBody isClosing isAfter
  exact ⟨slice_of_drop fromBefore, slice_of_drop fromName, isHead, isBody, isClosing, isAfter⟩

/-- After a turn no name goes on. -/
theorem Turn.IsAt.notName {turn : Turn} (isAt : turn.IsAt text position) :
    (text.take (turn.closing + 1)).getLast?.any isNameChar = false := by
  have isClosing := (isAt.closesAt.closes isAt.isOpening).2
  rw [List.getLast?_take, if_neg (Nat.succ_ne_zero _), Nat.add_sub_cancel, isClosing]
  have notName : isNameChar ')' = false := by decide
  exact notName

/-! ## Conversion stretch by stretch -/

namespace Scheme

variable {scheme : Scheme}

/-- The conversion of what comes after the last call.  A sum is only turned around if it is the
whole text. -/
def convertRest (scheme : Scheme) (whole : Bool) (text : List Char) : List Char :=
  match if whole then scheme.turnSum? text else none with
  | some turned => turned
  | none => scheme.swapUnits text

/-- The conversion of a stretch of a text. -/
def convertStretch (scheme : Scheme) (text : List Char) (stretch : Stretch) : List Char :=
  match stretch.role with
  | .plain => scheme.swapUnits (stretch.part text)
  | .kept => stretch.part text
  | .body function => scheme.convertBody function (stretch.part text)
  | .rest whole => scheme.convertRest whole (stretch.part text)

/-- Conversion from a position on goes over the stretches from there on. -/
theorem convertCalls_eq_flatMap
    (notName : (text.take position).getLast?.any isNameChar = false) :
    scheme.convertCalls (position == 0) (text.drop position) =
      (stretchesFrom text position).flatMap (scheme.convertStretch text) := by
  fun_induction stretchesFrom text position with
  | case1 position noTurn =>
      rw [turnAt?_eq notName, Option.map_eq_none_iff] at noTurn
      rw [convertCalls_of_none _ noTurn, List.flatMap_singleton]
      simp only [convertStretch, Stretch.part, slice_length]
      rfl
  | case2 position turn found inductionHypothesis =>
      have isAt := isAt_of_turnAt? found
      have ofLater := inductionHypothesis isAt.notName
      rw [turnAt?_eq notName, Option.map_eq_some_iff] at found
      obtain ⟨call, isCall, rfl⟩ := found
      obtain ⟨isBefore, -, isHead, isBody, isClosing, isAfter⟩ := (Call.isFirst isCall).slices
      rw [isAfter] at ofLater
      rw [convertCalls_of_some _ isCall, List.flatMap_append, ← ofLater]
      simp only [Turn.stretches, List.flatMap_cons, List.flatMap_nil, convertStretch, Stretch.part,
        isBefore, isHead, isClosing]
      rw [← Turn.body, isBody]
      simp [Turn.ofCall]

/-! ## Conversion with a bound -/

/-- The conversion of an expression or of an argument, with what converts a text call by call. -/
def partWith (scheme : Scheme) (convert : List Char → Option (List Char)) (text : List Char) :
    Option (List Char) :=
  match scheme.turnSum? text with
  | some turned => some turned
  | none => convert text

/-- The conversion of the body of a call, with what converts a text call by call. -/
def bodyWith (scheme : Scheme) (convert : List Char → Option (List Char))
    (function : MathFunction) (body : List Char) : Option (List Char) :=
  match function with
  | .calc => scheme.partWith convert body
  | .clamp =>
      ((splitTopLevel ',' body).mapM fun argument => scheme.partWith convert (trim argument)).map
        [',', ' '].intercalate

/-- The conversion of a text from a position on, turn by turn.  It fails if it needs more turns one
after the other, or more calls within each other, than it may take. -/
def convertWithin (scheme : Scheme) : Nat → List Char → Nat → Option (List Char)
  | 0, _, _ => none
  | bound + 1, text, position =>
      match turnAt? text position with
      | none => some (scheme.convertRest (position == 0) (text.drop position))
      | some turn => do
          let body ← scheme.bodyWith (fun part => convertWithin scheme bound part 0) turn.function
            (turn.body text)
          let rest ← convertWithin scheme bound text (turn.closing + 1)
          return scheme.swapUnits (slice text position turn.start) ++ turn.name text ++
            '(' :: body ++ ')' :: rest

theorem mapM_eq_some {α β : Type} {f : α → Option β} {g : α → β} {entries : List α}
    (succeeds : ∀ entry ∈ entries, f entry = some (g entry)) :
    entries.mapM f = some (entries.map g) := by
  induction entries with
  | nil => rfl
  | cons entry entries inductionHypothesis =>
      obtain ⟨here, later⟩ := List.forall_mem_cons.mp succeeds
      rw [List.mapM_cons, here, inductionHypothesis later]
      rfl

theorem partWith_eq {convert : List Char → Option (List Char)}
    (converts : convert text = some (scheme.convertCalls true text)) :
    scheme.partWith convert text = some (scheme.convertPart text) := by
  rw [partWith, convertPart, converts]
  cases scheme.turnSum? text <;> rfl

/-- A body is converted if all that is converted of it is. -/
theorem bodyWith_eq {convert : List Char → Option (List Char)} {body : List Char}
    (converts : ∀ part : List Char, part.length ≤ body.length →
      convert part = some (scheme.convertCalls true part)) (function : MathFunction) :
    scheme.bodyWith convert function body = some (scheme.convertBody function body) := by
  cases function with
  | «calc» => exact partWith_eq (converts body (Nat.le_refl _))
  | clamp =>
      have areConverted : ∀ argument ∈ splitTopLevel ',' body,
          scheme.partWith convert (trim argument) = some (scheme.convertPart (trim argument)) :=
        fun argument member => partWith_eq (converts _ (Nat.le_trans (length_trim_le argument)
          (length_le_of_mem_splitTopLevel member)))
      rw [bodyWith, mapM_eq_some areConverted]
      rfl

/-- The length of what is left of a text bounds what its conversion takes. -/
theorem convertWithin_eq {bound : Nat} (enough : text.length - position < bound)
    (notName : (text.take position).getLast?.any isNameChar = false) :
    scheme.convertWithin bound text position =
      some (scheme.convertCalls (position == 0) (text.drop position)) := by
  induction bound generalizing text position with
  | zero => exact absurd enough (Nat.not_lt_zero _)
  | succ bound inductionHypothesis =>
      rw [convertWithin]
      cases found : turnAt? text position with
      | none =>
          rw [turnAt?_eq notName, Option.map_eq_none_iff] at found
          rw [convertCalls_of_none _ found]
          rfl
      | some turn =>
          have isAt := isAt_of_turnAt? found
          have advances := isAt.advances
          have bodyLt := isAt.length_body_lt
          have isBody : scheme.bodyWith (fun part => scheme.convertWithin bound part 0)
              turn.function (turn.body text) =
                some (scheme.convertBody turn.function (turn.body text)) :=
            bodyWith_eq (fun part le => inductionHypothesis (by omega) rfl) turn.function
          have isRest : scheme.convertWithin bound text (turn.closing + 1) =
              some (scheme.convertCalls false (text.drop (turn.closing + 1))) :=
            inductionHypothesis (by omega) isAt.notName
          rw [turnAt?_eq notName, Option.map_eq_some_iff] at found
          obtain ⟨call, isCall, rfl⟩ := found
          obtain ⟨isBefore, isName, -, isCallBody, -, isAfter⟩ := (Call.isFirst isCall).slices
          rw [isCallBody] at isBody
          rw [isAfter] at isRest
          rw [convertCalls_of_some _ isCall]
          simp only [isCallBody, isBody, isRest, isBefore, isName]
          rfl

/-- The closing parenthesis of an opening one stands at the only index up to which as many are
closed as opened and not earlier, and there is none if and only if more are opened than closed all
the way.  So every turn of a conversion takes the head of a function and a closing parenthesis at
least, and what it converts within them is shorter than the text: as many turns as the text has
characters are enough for it to end.  The stretches that it goes over are the text, without a gap
or an overlap, and the converted text is made of them. -/
theorem convertCalls_partitions :
    (∀ (text : List Char) (index : Nat), text[index]? = some '(' →
      (∀ stop, closingParen? text index = some stop ↔
        ClosesAt text index stop ∧ ∀ other, ClosesAt text index other → other = stop) ∧
      (closingParen? text index = none ↔ StaysOpen (text.drop index))) ∧
    (∀ (text : List Char) (position : Nat) (turn : Turn), turnAt? text position = some turn →
      turn.IsAt text position ∧
      position + turn.function.name.length + 2 ≤ turn.closing + 1 ∧ turn.closing < text.length ∧
      (turn.body text).length < text.length ∧
      ∀ argument ∈ splitTopLevel ',' (turn.body text), (trim argument).length < text.length) ∧
    (∀ (scheme : Scheme) (text : List Char) (bound : Nat), text.length < bound →
      scheme.convertWithin bound text 0 = some (scheme.convertCalls true text)) ∧
    (∀ text : List Char, Tiles 0 (stretchesFrom text 0) text.length ∧
      ((stretchesFrom text 0).flatMap fun stretch => stretch.part text) = text ∧
      ∀ scheme : Scheme, scheme.convertCalls true text =
        (stretchesFrom text 0).flatMap (scheme.convertStretch text)) := by
  refine ⟨fun text index opens => ⟨fun stop => ?_, closingParen?_eq_none_iff opens⟩,
    fun text position turn found => ?_, fun scheme text bound enough => ?_, fun text => ?_⟩
  · rw [closingParen?_eq_some_iff opens]
    exact ⟨fun closesAt => ⟨closesAt, fun _ => closesAt.unique opens⟩, And.left⟩
  · have isAt := isAt_of_turnAt? found
    refine ⟨isAt, isAt.advances.1, isAt.advances.2, ?_, fun argument member => ?_⟩
    · exact Nat.lt_of_le_of_lt (Nat.le_add_right _ _) isAt.length_body_lt
    · exact Nat.lt_of_le_of_lt (Nat.le_add_right _ _) (isAt.length_argument_lt member)
  · exact convertWithin_eq enough rfl
  · have tiles : Tiles 0 (stretchesFrom text 0) text.length := tiles_stretchesFrom (Nat.zero_le _)
    refine ⟨tiles, tiles.flatMap_part.trans (slice_length text 0), fun scheme => ?_⟩
    have ofStretches : scheme.convertCalls (0 == 0) (text.drop 0) =
        (stretchesFrom text 0).flatMap (scheme.convertStretch text) := convertCalls_eq_flatMap rfl
    exact ofStretches

/-- The first call has parentheses in it, and the second one is not closed. -/
theorem convertCalls_partitions_unclosedCall :
    let text := "1vw calc((2vw) + 1px) clamp(3vw, calc(1vw".toList
    let scheme : Scheme := { units := .standard, turnsSums := true }
    (text[8]? = some '(' ∧ ClosesAt text 8 20) ∧
      (text[37]? = some '(' ∧ StaysOpen (text.drop 37)) ∧
      (turnAt? text 0 = some ⟨.calc, 4, 8, 20⟩ ∧ (slice text 9 20).length < text.length) ∧
      text.length < 42 ∧ scheme.convertWithin 42 text 0 = some (scheme.convertCalls true text) := by
  intro text scheme
  obtain ⟨closes, turns, ends, -⟩ := convertCalls_partitions
  have isClosed : text[8]? = some '(' := by decide
  have isUnclosed : text[37]? = some '(' := by decide
  have isTurn : turnAt? text 0 = some ⟨.calc, 4, 8, 20⟩ := by decide +kernel
  obtain ⟨-, -, -, isShorter, -⟩ := turns text 0 _ isTurn
  have enough : text.length < 42 := by decide
  refine ⟨⟨isClosed, ?_⟩, ⟨isUnclosed, ?_⟩, ⟨isTurn, isShorter⟩, enough, ends scheme text 42 enough⟩
  · exact (((closes text 8 isClosed).1 20).mp (by decide)).1
  · exact (closes text 37 isUnclosed).2.mp (by decide)

end Scheme

end Value

end ContainerPreview
