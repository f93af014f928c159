import Nwscript.Syntax.StmtParser

/-! # Reading programs

The declarations at the top level. A malformed one is reported and skipped. -/

namespace Nwscript

/-- How the names of the definitions begin that declare engine types. -/
def engineStructureLead : String := "ENGINE_STRUCTURE_"

namespace Parser

/-! ## Definitions -/

def splitDefinition (text : List Char) : String × String :=
  (String.ofList (text.takeWhile fun c => !Text.isBlank c),
    String.ofList (Text.trim (text.dropWhile fun c => !Text.isBlank c)))

def defineLine (token : Token) : Parser Item := do
  let (name, value) := splitDefinition token.text.toList
  if engineStructureLead.toList.isPrefixOf name.toList && value ≠ "" then
    modify fun s => { s with engineTypes := value :: s.engineTypes }
  return .defineLine token.pos name value

/-! ## Structures -/

def fieldNames (type : TypeSpec) : Nat → Parser (List FieldDecl)
  | 0 => tooDeep
  | n + 1 => do
    let (name, pos) ← ident
    let field : FieldDecl := { type, name, pos }
    if ← acceptSymbol .comma then return field :: (← fieldNames type n)
    let _ ← symbol .semicolon
    return [field]

def structFields : Nat → Parser (List FieldDecl)
  | 0 => tooDeep
  | n + 1 => do
    if ← acceptSymbol .rightBrace then return []
    let type ← typeSpec
    let fields ← fieldNames type n
    return fields ++ (← structFields n)

def structDecl (n : Nat) : Parser StructDecl := do
  let token ← consume (.keyword .kwStruct)
  let (name, _) ← ident
  let _ ← symbol .leftBrace
  let fields ← structFields n
  let _ ← symbol .semicolon
  return { pos := token.pos, name, fields }

/-! ## Functions -/

def paramList : Nat → Parser (List Param)
  | 0 => tooDeep
  | n + 1 => do
    let pos := (← peek).pos
    let type ← typeSpec
    let (name, _) ← ident
    let default ← afterEquals (conditional n)
    let param : Param := { node := ← node pos, type, name, default }
    if ← acceptSymbol .comma then return param :: (← paramList n)
    let _ ← symbol .rightParen
    return [param]

def missingDefaults (seen : Bool) : List Param → List Param
  | [] => []
  | p :: ps =>
    if p.default.isSome then missingDefaults true ps
    else if seen then p :: missingDefaults seen ps
    else missingDefaults seen ps

def skipVoid : Parser Unit := do
  if (← peekKind) = .keyword .kwVoid && (← peekNth 1).kind = .symbol .rightParen then
    let _ ← next

def paramsToEnd (n : Nat) : Parser (List Param) := do
  if ← acceptSymbol .rightParen then return [] else paramList n

def reportMissing (ps : List Param) : Parser Unit :=
  (missingDefaults false ps).forM fun p => report ⟨.missingDefault p.name, p.node.pos⟩

def params (n : Nat) : Parser (List Param) := do
  let _ ← symbol .leftParen
  skipVoid
  let ps ← paramsToEnd n
  reportMissing ps
  return ps

def function (pos : Pos) (ret : TypeSpec) (name : String) (n : Nat) : Parser Item := do
  let params ← params n
  let decl : FunctionDecl := { pos, ret, name, params }
  if ← acceptSymbol .semicolon then
    modify fun s => { s with prototypes := PrototypeEntry.recordPrototype name pos s.prototypes }
    return .prototype decl
  modify fun s => { s with prototypes := PrototypeEntry.recordDefinition name pos s.prototypes }
  return .function decl (← block n)

/-! ## Items -/

def constant (pos : Pos) (n : Nat) : Parser Item := do
  let type ← typeSpec
  let first ← ident
  return .global (← varDecl pos true type first n)

def functionOrVariable (pos : Pos) (n : Nat) : Parser Item := do
  let type ← typeSpec
  let first ← ident
  if (← peekKind) = .symbol .leftParen then function pos type first.1 n
  else return .global (← varDecl pos false type first n)

def item (n : Nat) : Parser (Option Item) := do
  let token ← peek
  match token.kind with
  | .includeLine =>
    let _ ← next
    return some (.includeLine token.pos (normalizeName token.text))
  | .defineLine =>
    let _ ← next
    return some (← defineLine token)
  | .symbol .semicolon =>
    let _ ← next
    return none
  | .keyword .kwStruct =>
    if (← peekNth 2).kind = .symbol .leftBrace then return some (.struct (← structDecl n))
    else return some (← functionOrVariable token.pos n)
  | .keyword .kwConst =>
    let _ ← next
    return some (← constant token.pos n)
  | _ => return some (← functionOrVariable token.pos n)

def items : Nat → Parser Program
  | 0 => tooDeep
  | n + 1 => do
    if (← peekKind) = .eof then return []
    let first ← recovering true (item n)
    let rest ← items n
    return first.join.toList ++ rest

end Parser

/-! ## Programs -/

structure Parsed where
  program : Program
  prototypes : List PrototypeEntry
  /-- The number of nodes that were numbered. -/
  nodeCount : Nat
  errors : List SyntaxError
  deriving Repr

def Parsed.diagnostics (p : Parsed) : List Diagnostic := p.errors.map SyntaxError.diagnostic

/-- Steps that are enough for a number of tokens: the functions nest at most ten deep before a token
is read. -/
def parseSteps (tokens : List Token) : Nat := 16 * (tokens.length + 2)

def parse (engineTypes : List String) (tokens : List Token) : Parsed :=
  let start : ParserState := { stream := .ofTokens tokens, engineTypes }
  match Parser.items (parseSteps tokens) start with
  | .ok program s => ⟨program, s.prototypes, s.nextId, s.errors.reverse⟩
  | .error e s => ⟨[], s.prototypes, s.nextId, (e :: s.errors).reverse⟩

end Nwscript
