import Nwscript.Include.Name
import Nwscript.Syntax.Basic
import Nwscript.Syntax.Stream

/-! # The state of a parser

A parser reads from a stream, numbers the nodes it makes, and keeps the errors it has recovered
from. What it has read stays read when it fails. -/

namespace Nwscript

/-- Where a function was declared, in order, and where it was first defined. -/
structure PrototypeEntry where
  name : String
  prototypes : List Pos := []
  definition : Option Pos := none
  deriving DecidableEq, Repr

namespace PrototypeEntry

def update (name : String) (f : PrototypeEntry → PrototypeEntry) :
    List PrototypeEntry → List PrototypeEntry
  | [] => [f { name }]
  | e :: es =>
    if e.name = name then f e :: es
    else if name < e.name then f { name } :: e :: es
    else e :: update name f es

def recordPrototype (name : String) (pos : Pos) : List PrototypeEntry → List PrototypeEntry :=
  update name fun e => { e with prototypes := e.prototypes ++ [pos] }

def recordDefinition (name : String) (pos : Pos) : List PrototypeEntry → List PrototypeEntry :=
  update name fun e => { e with definition := e.definition.or (some pos) }

end PrototypeEntry

structure ParserState where
  stream : TokenStream
  nextId : NodeId := 0
  engineTypes : List String := []
  /-- The errors recovered from, the last one first. -/
  errors : List SyntaxError := []
  /-- Sorted by name. -/
  prototypes : List PrototypeEntry := []
  deriving Repr

abbrev Parser (α : Type) := EStateM SyntaxError ParserState α

namespace Parser

def peek : Parser Token := do return (← get).stream.peek

def peekKind : Parser TokenKind := do return (← get).stream.peekKind

def peekNth (n : Nat) : Parser Token := do return (← get).stream.peekNth n

def next : Parser Token := do
  let s ← get
  set { s with stream := s.stream.advance }
  return s.stream.peek

def unexpected {α : Type} (expected : String) : Parser α := do
  throw ((← get).stream.unexpected expected)

/-- Fail because the steps ran out. -/
def tooDeep {α : Type} : Parser α := do throw ⟨.tooDeep, (← get).stream.peek.pos⟩

def accept (kind : TokenKind) : Parser Bool := do
  let s ← get
  let (found, stream) := s.stream.accept kind
  set { s with stream }
  return found

def consume (kind : TokenKind) : Parser Token := do
  let s ← get
  match s.stream.consume kind with
  | (.ok token, stream) =>
    set { s with stream }
    return token
  | (.error e, _) => throw e

def symbol (s : Symbol) : Parser Token := consume (.symbol s)

def acceptSymbol (s : Symbol) : Parser Bool := accept (.symbol s)

def ident : Parser (String × Pos) := do
  let token ← consume .ident
  return (token.text, token.pos)

def freshId : Parser NodeId := do
  let s ← get
  set { s with nextId := s.nextId + 1 }
  return s.nextId

def node (pos : Pos) : Parser Node := do return ⟨← freshId, pos⟩

def report (e : SyntaxError) : Parser Unit := modify fun s => { s with errors := e :: s.errors }

/-- The tokens behind a malformed statement. Its semicolon is skipped; a closing brace only at the
top level, since within a block it closes the block. -/
def behindStatement (topLevel : Bool) : List Token → List Token
  | [] => []
  | t :: rest =>
    if t.kind = .eof then t :: rest
    else if t.kind = .symbol .semicolon then rest
    else if t.kind = .symbol .rightBrace then if topLevel then rest else t :: rest
    else behindStatement topLevel rest

def synchronize (topLevel : Bool) : Parser Unit :=
  modify fun s => { s with stream := { s.stream with rest := behindStatement topLevel s.stream.rest } }

/-- Read with `p`; on an error report it, skip the statement and give nothing. -/
def recovering {α : Type} (topLevel : Bool) (p : Parser α) : Parser (Option α) :=
  tryCatch (some <$> p) fun e => do
    report e
    synchronize topLevel
    return none

def isEngineType (name : String) : Parser Bool := do return (← get).engineTypes.contains name

def atType : Parser Bool := do
  let token ← peek
  match token.kind with
  | .keyword k => return k.isType
  | .ident => return (← isEngineType token.text) && (← peekNth 1).kind == .ident
  | _ => return false

def keywordType? : Keyword → Option TypeSpec
  | .kwVoid => some .void
  | .kwInt => some .int
  | .kwFloat => some .float
  | .kwString => some .string
  | .kwObject => some .object
  | .kwVector => some .vector
  | .kwAction => some .action
  | _ => none

def typeSpec : Parser TypeSpec := do
  let token ← peek
  match token.kind with
  | .keyword .kwStruct =>
    let _ ← next
    return .struct (← ident).1
  | .keyword k =>
    match keywordType? k with
    | some type =>
      let _ ← next
      return type
    | none => unexpected "type"
  | .ident =>
    if ← isEngineType token.text then
      let _ ← next
      return .engine token.text
    else unexpected "type"
  | _ => unexpected "type"

end Parser
end Nwscript
