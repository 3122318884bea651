import ContainerPreview.Proofs.Sheet.Fragment
import ContainerPreview.Sheet.Printer

/-!
# Nodes that are read again

A text is read as nodes, whatever follows it, if it is cut into tokens that are read as those
nodes.  A node is restored if the lines that are written for it are such a text, at every depth.
Lines one after the other and blocks of restored nodes are read as the nodes that they were
written for.
-/

namespace ContainerPreview

open Css Text

/-! ## Tokens that go on with what is begun -/

namespace Begun

/-- The token goes on with what is begun and does not end it. -/
def takes : Begun → Token → Bool
  | .nothing, _ => false
  | .atRule _ _, token => !token.isCurly && !token.isLiteral ";"
  | .rule _ _, token => !token.isCurly
  | .declaration _ _, token => !token.isLiteral ";"

/-- One more token for what is begun. -/
def push : Begun → Token → Begun
  | .nothing, _ => .nothing
  | .atRule name prelude, token => .atRule name (token :: prelude)
  | .rule _ prelude, token => .rule token.position (token :: prelude)
  | .declaration first others, token => .declaration first (token :: others)

/-- More tokens for what is begun. -/
def pushAll (begun : Begun) (tokens : List Token) : Begun :=
  tokens.foldl push begun

theorem takes_push (begun : Begun) (token : Token) : (begun.push token).takes = begun.takes := by
  cases begun <;> rfl

theorem pushAll_atRule (name : String) (prelude tokens : List Token) :
    (Begun.atRule name prelude).pushAll tokens = .atRule name (tokens.reverse ++ prelude) := by
  induction tokens generalizing prelude with
  | nil => rfl
  | cons token tokens inductionHypothesis =>
      rw [List.reverse_cons, List.append_assoc]
      exact inductionHypothesis (token :: prelude)

theorem pushAll_declaration (first : Token) (others tokens : List Token) :
    (Begun.declaration first others).pushAll tokens =
      .declaration first (tokens.reverse ++ others) := by
  induction tokens generalizing others with
  | nil => rfl
  | cons token tokens inductionHypothesis =>
      rw [List.reverse_cons, List.append_assoc]
      exact inductionHypothesis (token :: others)

theorem exists_pushAll_rule (last : Position) (prelude tokens : List Token) :
    ∃ last', (Begun.rule last prelude).pushAll tokens = .rule last' (tokens.reverse ++ prelude) := by
  induction tokens generalizing last prelude with
  | nil => exact ⟨last, rfl⟩
  | cons token tokens inductionHypothesis =>
      rw [List.reverse_cons, List.append_assoc]
      exact inductionHypothesis token.position (token :: prelude)

end Begun

variable {kind : ListKind} {source : Option String}

theorem readBlock?_of_not_isCurly {token : Token} (notCurly : token.isCurly = false) (begun : Begun) :
    readBlock? kind source begun token = .ok none := by
  cases token with
  | single => rfl
  | group position opener content =>
      cases opener with
      | curly => cases notCurly
      | _ => rfl

/-- A token that is no block ends some entries, and reading goes on. -/
theorem readList_token {begun after : Begun} {token : Token} {entries : List Node}
    (noBlock : readBlock? kind source begun token = .ok none)
    (isRead : readToken kind source begun token = .ok (after, entries)) (rest : List Token) :
    readList kind source begun (token :: rest) =
      (readList kind source after rest).map (entries ++ ·) := by
  rw [readList, noBlock, isRead]
  rfl

theorem map_nil_append (read : Except ReadError (List Node)) : read.map ([] ++ ·) = read := by
  cases read <;> rfl

theorem readList_push {begun : Begun} {token : Token} (takes : begun.takes token)
    (rest : List Token) :
    readList kind source begun (token :: rest) = readList kind source (begun.push token) rest := by
  have noBlock : readBlock? kind source begun token = .ok none := by
    cases begun with
    | nothing => cases takes
    | atRule name prelude =>
        simp only [Begun.takes, Bool.and_eq_true, Bool.not_eq_true'] at takes
        exact readBlock?_of_not_isCurly takes.1 _
    | rule last prelude =>
        simp only [Begun.takes, Bool.not_eq_true'] at takes
        exact readBlock?_of_not_isCurly takes _
    | declaration first others =>
        cases token with
        | single => rfl
        | group position opener content => cases opener <;> rfl
  have isRead : readToken kind source begun token = .ok (begun.push token, []) := by
    cases begun with
    | nothing => cases takes
    | atRule name prelude =>
        simp only [Begun.takes, Bool.and_eq_true, Bool.not_eq_true'] at takes
        simp [readToken, takes.2, Begun.push]
    | rule last prelude => rfl
    | declaration first others =>
        simp only [Begun.takes, Bool.not_eq_true'] at takes
        simp [readToken, takes, Begun.push]
  rw [readList_token noBlock isRead]
  exact map_nil_append _

theorem readList_pushAll {begun : Begun} {tokens : List Token}
    (takes : ∀ token ∈ tokens, begun.takes token) (rest : List Token) :
    readList kind source begun (tokens ++ rest) = readList kind source (begun.pushAll tokens) rest := by
  induction tokens generalizing begun with
  | nil => rfl
  | cons token tokens inductionHypothesis =>
      rw [List.forall_mem_cons] at takes
      rw [List.cons_append, readList_push takes.1]
      exact inductionHypothesis fun other member => by
        rw [Begun.takes_push]
        exact takes.2 other member

/-- A block is read in curly brackets after what it belongs to. -/
theorem readList_block {begun : Begun} {head : Head} {inner : ListKind}
    (isHead : blockHead? kind begun = some (head, inner)) (position : Position)
    (content rest : List Token) :
    readList kind source begun (.group position .curly content :: rest) = do
      let children ← readList inner source .nothing content
      return .block source head false children :: (← readList kind source .nothing rest) := by
  rw [readList, readBlock?]
  simp only [isHead, bind_assoc]
  cases readList inner source .nothing content <;> rfl

/-! ## Texts that are read as nodes -/

/-- A text is cut into tokens that are read as the given nodes, whatever follows. -/
structure Rereads (kind : ListKind) (source : Option String) (nodes : List Node) (text : List Char)
    (tokens : List Token) : Prop where
  flawless : flawlessIn tokens
  tidy : text.all isTidy
  cut : ∀ new, signsOf (text ++ new) = signsIn tokens ++ signsOf new
  read : ∀ more, readList kind source .nothing (tokens ++ more) =
    (readList kind source .nothing more).map (nodes ++ ·)

/-- A text that begins with no blank. -/
def Begins (text : List Char) : Prop :=
  ∃ c more, text = c :: more ∧ isGap c = false

theorem Begins.notGap {text : List Char} (begins : Begins text) (new : List Char) :
    ∀ c ∈ (text ++ new).head?, isGap c = false := by
  obtain ⟨c, more, rfl, notGap⟩ := begins
  rintro _ ⟨⟩
  exact notGap

theorem Begins.append {text : List Char} (begins : Begins text) (rest : List Char) :
    Begins (text ++ rest) := by
  obtain ⟨c, more, rfl, notGap⟩ := begins
  exact ⟨c, more ++ rest, rfl, notGap⟩

theorem readList_blanks (text : List Char) (rest : List Token) :
    readList kind source .nothing (blanks text ++ rest) = readList kind source .nothing rest := by
  rw [blanks]
  split
  · rfl
  · have isRead : readToken kind source .nothing (.single .start (.blank text)) =
        .ok (.nothing, []) := by
      cases kind <;> rfl
    rw [List.singleton_append, readList_token rfl isRead]
    exact map_nil_append _

namespace Rereads

variable {nodes nodes' : List Node} {text text' : List Char} {tokens tokens' : List Token}

theorem nil : Rereads kind source [] [] [] where
  flawless := rfl
  tidy := rfl
  cut := fun _ => rfl
  read := fun _ => (map_nil_append _).symm

theorem append (first : Rereads kind source nodes text tokens)
    (second : Rereads kind source nodes' text' tokens') :
    Rereads kind source (nodes ++ nodes') (text ++ text') (tokens ++ tokens') where
  flawless := by rw [flawlessIn_append, first.flawless, second.flawless]; rfl
  tidy := by rw [List.all_append, first.tidy, second.tidy]; rfl
  cut := fun new => by
    rw [List.append_assoc, first.cut, second.cut, signsIn_append, List.append_assoc]
  read := fun more => by
    rw [List.append_assoc, first.read, second.read]
    cases readList kind source .nothing more with
    | error => rfl
    | ok nodes => exact congrArg Except.ok (List.append_assoc _ _ _).symm

theorem isTidy_of_isGap {c : Char} (gap : isGap c) : isTidy c := by
  simp only [isGap, Bool.or_eq_true, beq_iff_eq] at gap
  rcases gap with (rfl | rfl) | rfl <;> rfl

theorem indent (rereads : Rereads kind source nodes text tokens) (begins : Begins text)
    {gaps : List Char} (areGaps : gaps.all isGap) :
    Rereads kind source nodes (gaps ++ text) (blanks gaps ++ tokens) where
  flawless := by rw [flawlessIn_append, flawlessIn_blanks, rereads.flawless]; rfl
  tidy := by
    rw [List.all_append, rereads.tidy, Bool.and_true, List.all_eq_true]
    exact fun c member => isTidy_of_isGap (List.all_eq_true.mp areGaps c member)
  cut := fun new => by
    rw [List.append_assoc, signsOf_blanks areGaps (begins.notGap new), rereads.cut, signsIn_append,
      List.append_assoc]
  read := fun more => by rw [List.append_assoc, readList_blanks, rereads.read]

end Rereads

/-- A node is read again from the line that is written for it, whatever its depth. -/
def Restored (kind : ListKind) (source : Option String) (node : Node) : Prop :=
  ∀ depth, ∃ gaps body tokens, (node.cssAt depth).toList = gaps ++ body ∧ gaps.all isGap ∧
    Begins body ∧ Rereads kind source [node] body tokens

/-- Lines that are written for nodes, each after a line end. -/
def entries (depth : Nat) (nodes : List Node) : List Char :=
  nodes.flatMap fun node => '\n' :: (node.cssAt depth).toList

/-- Nodes are read again from the lines that are written for them. -/
theorem exists_rereads_entries (depth : Nat) {nodes : List Node}
    (restored : ∀ node ∈ nodes, Restored kind source node) :
    ∃ tokens, Rereads kind source nodes (entries depth nodes) tokens := by
  induction nodes with
  | nil => exact ⟨[], .nil⟩
  | cons node nodes inductionHypothesis =>
      rw [List.forall_mem_cons] at restored
      obtain ⟨tokens, rereads⟩ := inductionHypothesis restored.2
      obtain ⟨gaps, body, first, isText, areGaps, begins, isFirst⟩ := restored.1 depth
      have lineGaps : ('\n' :: gaps).all isGap := by
        rw [List.all_cons, areGaps]
        rfl
      have line := isFirst.indent begins lineGaps
      have same : entries depth (node :: nodes) = ('\n' :: gaps ++ body) ++ entries depth nodes := by
        rw [entries, List.flatMap_cons, isText]
        rfl
      rw [same]
      exact ⟨_, line.append rereads⟩

theorem entries_eq (depth : Nat) (node : Node) (nodes : List Node) :
    entries depth (node :: nodes) =
      '\n' :: (String.intercalate "\n" (linesAt depth (node :: nodes))).toList := by
  have lineEnd : "\n".toList = ['\n'] := rfl
  rw [String.toList_intercalate, lineEnd]
  induction nodes generalizing node with
  | nil => simp [entries, linesAt]
  | cons next nodes inductionHypothesis =>
      have same : entries depth (node :: next :: nodes) =
          '\n' :: (node.cssAt depth).toList ++ entries depth (next :: nodes) := rfl
      have isLines : ∀ node nodes, linesAt depth (node :: nodes) =
          node.cssAt depth :: linesAt depth nodes := fun _ _ => rfl
      rw [same, inductionHypothesis]
      simp only [isLines, List.map_cons, List.intercalate_cons_cons]
      simp

theorem toList_indentation (depth : Nat) :
    (indentation depth).toList = List.replicate (2 * depth) ' ' := by
  rw [indentation, String.toList_ofList]

theorem areGaps_indentation (depth : Nat) : (indentation depth).toList.all isGap := by
  rw [toList_indentation, List.all_eq_true]
  intro c member
  rw [List.eq_of_mem_replicate member]
  rfl

theorem toList_braces (depth : Nat) (nodes : List Node) :
    (braces depth (linesAt (depth + 1) nodes)).toList =
      '\x7b' :: (entries (depth + 1) nodes ++
        ((if nodes.isEmpty then [] else '\n' :: (indentation depth).toList) ++ ['\x7d'])) := by
  cases nodes with
  | nil => simp [braces, linesAt, entries]
  | cons node nodes =>
      rw [entries_eq]
      simp [braces, linesAt]

/-- The block that is written for some nodes is read as a block with these nodes. -/
theorem exists_content (depth : Nat) {nodes : List Node}
    (restored : ∀ node ∈ nodes, Restored kind source node) :
    ∃ content, flawlessIn content ∧ (braces depth (linesAt (depth + 1) nodes)).toList.all isTidy ∧
      (∀ new, signsOf ((braces depth (linesAt (depth + 1) nodes)).toList ++ new) =
        signsIn [.group .start .curly content] ++ signsOf new) ∧
      readList kind source .nothing content = .ok nodes := by
  obtain ⟨tokens, rereads⟩ := exists_rereads_entries (depth + 1) restored
  generalize isEnd : (if nodes.isEmpty then [] else '\n' :: (indentation depth).toList) = gaps
  have areGaps : gaps.all isGap := by
    rw [← isEnd]
    split
    · rfl
    · rw [List.all_cons, areGaps_indentation]
      rfl
  refine ⟨tokens ++ blanks gaps, ?_, ?_, fun new => ?_, ?_⟩
  · rw [flawlessIn_append, rereads.flawless, flawlessIn_blanks]
    rfl
  · have gapsTidy : gaps.all isTidy := List.all_eq_true.mpr fun c member =>
      Rereads.isTidy_of_isGap (List.all_eq_true.mp areGaps c member)
    rw [toList_braces, isEnd, List.all_cons, List.all_append, List.all_append, rereads.tidy, gapsTidy]
    rfl
  · have isOpening : ∀ new, signsOf ('\x7b' :: new) = .opening .curly :: signsOf new := fun new =>
      signsOf_single rfl
    have isClosing : ∀ new, signsOf ('\x7d' :: new) = .closing '\x7d' :: signsOf new := fun new =>
      signsOf_single rfl
    rw [toList_braces, isEnd, List.cons_append, isOpening, List.append_assoc, rereads.cut,
      List.append_assoc, signsOf_blanks areGaps (by rintro _ ⟨⟩; rfl), List.singleton_append,
      isClosing, signsIn_singleton, Token.signs, signsIn_append]
    simp [Opener.closer]
  · have none : readList kind source .nothing (blanks gaps ++ []) = _ := readList_blanks gaps []
    rw [List.append_nil] at none
    rw [rereads.read, none]
    exact congrArg Except.ok (List.append_nil nodes)

end ContainerPreview
