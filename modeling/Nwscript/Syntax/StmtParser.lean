import Nwscript.Syntax.ExprParser

/-! # Reading statements

A malformed statement is reported and skipped, and its block goes on behind it. -/

namespace Nwscript.Parser

/-! ## Declarations of variables -/

def declarators (name : String) (pos : Pos) : Nat → Parser (List Declarator)
  | 0 => tooDeep
  | n + 1 => do
    let init ← afterEquals (expr n)
    let var : Declarator := { node := ← node pos, name, init }
    if ← acceptSymbol .comma then
      let (name, pos) ← ident
      return var :: (← declarators name pos n)
    return [var]

def varDecl (pos : Pos) (isConst : Bool) (type : TypeSpec) (first : String × Pos) (n : Nat) :
    Parser VarDecl := do
  let vars ← declarators first.1 first.2 n
  let _ ← symbol .semicolon
  return { pos, isConst, type, vars }

def localDecl (pos : Pos) (n : Nat) : Parser VarDecl := do
  let type ← typeSpec
  let first ← ident
  varDecl pos false type first n

/-! ## Statements without statements in them -/

def caseLabel (pos : Pos) (n : Nat) : Parser Stmt := do
  let label ← conditional n
  let _ ← symbol .colon
  return .caseLabel pos label

def returnStmt (pos : Pos) (n : Nat) : Parser Stmt := do
  let value ← optionalExpr .semicolon n
  let _ ← symbol .semicolon
  return .ret pos value

def simpleStmt (pos : Pos) (n : Nat) : Parser Stmt := do
  if ← atType then return .var pos (← localDecl pos n)
  let e ← expr n
  let _ ← symbol .semicolon
  return .expr pos e

def forHead (n : Nat) : Parser (Option Expr × Option Expr × Option Expr) := do
  let _ ← symbol .leftParen
  let init ← optionalExpr .semicolon n
  let _ ← symbol .semicolon
  let cond ← optionalExpr .semicolon n
  let _ ← symbol .semicolon
  let next ← optionalExpr .rightParen n
  let _ ← symbol .rightParen
  return (init, cond, next)

/-! ## Statements -/

mutual

def stmt : Nat → Parser Stmt
  | 0 => tooDeep
  | n + 1 => do
    let token ← peek
    let pos := token.pos
    match token.kind with
    | .symbol .leftBrace => return .block pos (← block n)
    | .symbol .semicolon =>
      let _ ← next
      return .empty pos
    | .keyword .kwIf =>
      let _ ← next
      let cond ← parenExpr n
      let yes ← stmt n
      if ← accept (.keyword .kwElse) then return .ifElse pos cond yes (← stmt n)
      return .ifThen pos cond yes
    | .keyword .kwWhile =>
      let _ ← next
      let cond ← parenExpr n
      return .whileLoop pos cond (← stmt n)
    | .keyword .kwDo =>
      let _ ← next
      let body ← stmt n
      let _ ← consume (.keyword .kwWhile)
      let cond ← parenExpr n
      let _ ← symbol .semicolon
      return .doWhile pos body cond
    | .keyword .kwFor =>
      let _ ← next
      let (init, cond, step) ← forHead n
      return .forLoop pos init cond step (← stmt n)
    | .keyword .kwSwitch =>
      let _ ← next
      let value ← parenExpr n
      return .switch pos value (← block n)
    | .keyword .kwCase =>
      let _ ← next
      caseLabel pos n
    | .keyword .kwDefault =>
      let _ ← next
      let _ ← symbol .colon
      return .defaultLabel pos
    | .keyword .kwReturn =>
      let _ ← next
      returnStmt pos n
    | .keyword .kwBreak =>
      let _ ← next
      let _ ← symbol .semicolon
      return .breakOut pos
    | .keyword .kwContinue =>
      let _ ← next
      let _ ← symbol .semicolon
      return .continueLoop pos
    | _ => simpleStmt pos n

def block : Nat → Parser (List Stmt)
  | 0 => tooDeep
  | n + 1 => do
    let _ ← symbol .leftBrace
    blockRest n

def blockRest : Nat → Parser (List Stmt)
  | 0 => tooDeep
  | n + 1 => do
    match ← peekKind with
    | .symbol .rightBrace =>
      let _ ← next
      return []
    | .eof => unexpected "'\x7d'"
    | _ =>
      let first ← recovering false (stmt n)
      let rest ← blockRest n
      return first.toList ++ rest

end

end Nwscript.Parser
