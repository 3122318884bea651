import ContainerPreview.Css.Printer
import ContainerPreview.Css.Scanner
import ContainerPreview.Sheet.Node
import ContainerPreview.Text.Blank

/-!
# Reading style sheets

The tokens of a text are read as a list of rules, at-rules and comments, and
the content of a block as a further such list or as a list of declarations.
Selectors, parameters and values are kept as text: their tokens are written
again and trimmed.

Reading goes on from token to token with what is begun but not yet ended, and
stops at the first thing that cannot be read.
-/

namespace ContainerPreview

open Css

/-- What makes a style sheet unreadable. -/
inductive Problem where
  /-- The text ends before the block of a rule. -/
  | ruleWithoutBlock
  /-- A declaration starts with a token of the given kind instead of a name. -/
  | noName (kind : String)
  /-- A declaration ends after its name. -/
  | nothingAfterName
  /-- The name of a declaration is followed by something else than a colon. -/
  | noColon
  /-- The value of a declaration goes on with a block. -/
  | blockInValue
deriving DecidableEq, Repr

namespace Problem

/-- The message for a problem. -/
def message : Problem → String
  | .ruleWithoutBlock => "EOF reached before \x7b\x7d block for a qualified rule."
  | .noName kind => "Expected <ident> for declaration name, got " ++ kind ++ "."
  | .nothingAfterName => "Expected ':' after declaration name, got EOF"
  | .noColon => "Expected ':' after declaration name, got \x7bcolon.type\x7d."
  | .blockInValue => "Declaration contains \x7b\x7d block"

end Problem

/-- A problem and where it was found. -/
structure ReadError where
  problem : Problem
  position : Position
deriving DecidableEq, Repr

/-- A place in words.  It is empty if not even the line is known. -/
def describePlace (line column : Option Int) : String :=
  match line, column with
  | none, _ => ""
  | some line, none => "line " ++ toString line
  | some line, some column => "line " ++ toString line ++ ", column " ++ toString column

namespace ReadError

/-- The place of the problem in words. -/
def place (error : ReadError) : String :=
  describePlace (some error.position.line) (some error.position.column)

end ReadError

/-- The text of tokens between other tokens: without blanks around it. -/
def textOf (tokens : List Token) : String :=
  String.ofList (Text.trim (writeTokens tokens))

/-- The at-rules whose blocks hold rules rather than declarations. -/
def ruleListAtRules : List String :=
  ["media", "supports", "container", "layer", "document", "-moz-document", "scope",
    "starting-style", "keyframes", "-webkit-keyframes", "-moz-keyframes", "-o-keyframes"]

/-- The state of a search for the mark of importance at the end of a value. -/
inductive Importance where
  | value
  | mark (before : List Token)
  | important (before : List Token)

/-- What the tokens of a value amount to: the tokens without the mark of
importance, whether there is one, and whether a block follows other tokens. -/
structure ValueReading where
  tokens : List Token
  important : Bool
  blockFollows : Bool

/-- Reads the tokens of a value.  Given are the tokens before in reverse, the
state of the search for the mark, and whether a token other than a blank, a
comment or a part of the mark has been seen. -/
def readValue (before : List Token) (state : Importance) (seen : Bool) :
    List Token → ValueReading
  | [] =>
      match state with
      | .important before => { tokens := before.reverse, important := true, blockFollows := false }
      | _ => { tokens := before.reverse, important := false, blockFollows := false }
  | token :: rest =>
      let isMark :=
        match state with
        | .value => token.isLiteral "!"
        | _ => false
      let isWord :=
        match state, token with
        | .mark _, .single _ (.ident name) => Text.lowerAscii name == "important".toList
        | _, _ => false
      if isMark then readValue (token :: before) (.mark before) seen rest
      else if isWord then
        match state with
        | .mark start => readValue (token :: before) (.important start) seen rest
        | _ => readValue (token :: before) state seen rest
      else if token.isInsignificant then readValue (token :: before) state seen rest
      else
        let reading := readValue (token :: before) .value true rest
        { reading with blockFollows := reading.blockFollows || (seen && token.isCurly) }

/-- The name of a property: in lower case, unless it is a custom one. -/
def propertyName (name : List Char) : String :=
  match name with
  | '-' :: '-' :: _ => String.ofList name
  | _ => String.ofList (Text.lowerAscii name)

/-- Reads a declaration from its first token and the others. -/
def readDeclaration (first : Token) (others : List Token) : Except ReadError Declaration :=
  match first with
  | .single position (.ident name) =>
      match others.dropWhile Token.isInsignificant with
      | [] => .error { problem := .nothingAfterName, position }
      | colon :: value =>
          if colon.isLiteral ":" then
            let reading := readValue [] .value false value
            if reading.blockFollows then
              .error { problem := .blockInValue, position := colon.position }
            else
              .ok { property := propertyName name, value := textOf reading.tokens,
                    important := reading.important }
          else .error { problem := .noColon, position := colon.position }
  | token => .error { problem := .noName token.kind, position := token.position }

/-- What is begun but not yet ended in a list of rules or declarations.  Tokens
are kept in reverse. -/
inductive Begun where
  | nothing
  | atRule (name : String) (prelude : List Token)
  | rule (last : Position) (prelude : List Token)
  | declaration (first : Token) (others : List Token)

/-- How a list is read: the whole sheet, a list of rules in a block, or a list
of declarations. -/
inductive ListKind where
  | sheet
  | rules
  | declarations
deriving DecidableEq, Repr

namespace ListKind

/-- How the block of an at-rule is read. -/
def ofAtRule (name : String) : ListKind :=
  if ruleListAtRules.contains name then .rules else .declarations

/-- The token has no meaning between the entries of a list. -/
def skips (kind : ListKind) : Token → Bool
  | .single _ (.blank _) => true
  | token =>
      match kind with
      | .sheet => token.isLiteral "<!--" || token.isLiteral "-->"
      | .rules => false
      | .declarations => token.isLiteral ";"

/-- What a token begins that is neither skipped nor an entry by itself. -/
def begins (kind : ListKind) : Token → Begun
  | .single _ (.atKeyword name) => .atRule (String.ofList (Text.lowerAscii name)) []
  | token =>
      match kind with
      | .declarations => .declaration token []
      | _ => .rule token.position [token]

end ListKind

/-- What is begun at the end of a list becomes its last entry. -/
def endOfList (source : Option String) : Begun → Except ReadError (List Node)
  | .nothing => .ok []
  | .atRule name prelude =>
      .ok [.block source (.atRule name (textOf prelude.reverse) false) false []]
  | .rule last _ => .error { problem := .ruleWithoutBlock, position := last }
  | .declaration first others => do
      let declaration ← readDeclaration first others.reverse
      return [.leaf source (.declaration declaration)]

/-- The head of the block that a curly token is, and how its content is read,
if what is begun can end with a block. -/
def blockHead? (kind : ListKind) : Begun → Option (Head × ListKind)
  | .nothing => if kind == .declarations then none else some (.rule "", .declarations)
  | .atRule name prelude =>
      some (.atRule name (textOf prelude.reverse) true, .ofAtRule name)
  | .rule _ prelude => some (.rule (textOf prelude.reverse), .declarations)
  | .declaration _ _ => none

/-- One more token for what is begun, and the entry that it ends. -/
def readToken (kind : ListKind) (source : Option String) (begun : Begun) (token : Token) :
    Except ReadError (Begun × List Node) :=
  match begun with
  | .nothing =>
      match token with
      | .single _ (.comment text) =>
          .ok (.nothing, [.leaf source (.comment (String.ofList text))])
      | token => .ok (if kind.skips token then .nothing else kind.begins token, [])
  | .atRule name prelude =>
      if token.isLiteral ";" then do
        return (.nothing, ← endOfList source (.atRule name prelude))
      else .ok (.atRule name (token :: prelude), [])
  | .rule _ prelude => .ok (.rule token.position (token :: prelude), [])
  | .declaration first others =>
      if token.isLiteral ";" then do
        return (.nothing, ← endOfList source (.declaration first others))
      else .ok (.declaration first (token :: others), [])

mutual
/-- The block that a curly token is in a list, if it is one. -/
def readBlock? (kind : ListKind) (source : Option String) (begun : Begun) :
    Token → Except ReadError (Option Node)
  | .group _ .curly content =>
      match blockHead? kind begun with
      | some (head, inner) => do
          let children ← readList inner source .nothing content
          return some (.block source head false children)
      | none => .ok none
  | _ => .ok none
/-- Reads a list from what is begun and the tokens that follow. -/
def readList (kind : ListKind) (source : Option String) (begun : Begun) :
    List Token → Except ReadError (List Node)
  | [] => endOfList source begun
  | token :: rest => do
      match ← readBlock? kind source begun token with
      | some block => return block :: (← readList kind source .nothing rest)
      | none =>
          let (begun, entries) ← readToken kind source begun token
          return entries ++ (← readList kind source begun rest)
end

/-- Reads a style sheet.  Every node has the given source. -/
def readSheet (text : String) (source : Option String) : Except ReadError Node := do
  let children ← readList .sheet source .nothing (tokens text.toList)
  return .block source .sheet false children

end ContainerPreview
