import Nwscript.Syntax.Parser
import Nwscript.Token.Literal

/-! # Reading expressions

Precedence climbing over the binary operators. Each function takes the number of steps that it may
still nest; a few for each token are always enough. -/

namespace Nwscript.Parser

/-! ## Vectors -/

def component : Parser Single := do
  let negative ← acceptSymbol .minus
  let token ← peek
  let value? :=
    match token.kind with
    | .floatLit => Literal.floatValue? token.text.toList
    | .intLit => (Literal.intValue? token.text.toList).map fun (n : Int32) => Single.ofInt n.toInt
    | _ => none
  match value? with
  | some value =>
    let _ ← next
    return if negative then value.neg else value
  | none => unexpected "numeric vector component"

def componentFollows (first : Bool) : Parser Bool := do
  if (← peekKind) = .symbol .rightBracket then return false
  unless first do
    let _ ← symbol .comma
  return true

def components (first : Bool) : Nat → Parser (List Single)
  | 0 => do
    if ← componentFollows first then unexpected "']'" else return []
  | slots + 1 => do
    if ← componentFollows first then
      let x ← component
      return x :: (← components false slots)
    else return []

def vector : Parser Expr := do
  let open_ ← symbol .leftBracket
  let xs ← components true 3
  let _ ← symbol .rightBracket
  return .literal (← node open_.pos)
    (.vector (xs.getD 0 .zero) (xs.getD 1 .zero) (xs.getD 2 .zero))

/-! ## Leaves and suffixes -/

def leaf (token : Token) (value : Value) : Parser Expr := do
  let _ ← next
  return .literal (← node token.pos) value

def step? : TokenKind → Option Step
  | .symbol .plusPlus => some .increment
  | .symbol .minusMinus => some .decrement
  | _ => none

def suffixes (e : Expr) : Nat → Parser Expr
  | 0 => tooDeep
  | n + 1 => do
    let token ← peek
    match step? token.kind with
    | some s =>
      let _ ← next
      suffixes (.step (← node token.pos) s .valueFirst e) n
    | none =>
      if token.kind = .symbol .dot then
        let _ ← next
        let (name, pos) ← ident
        suffixes (.field (← node pos) e name) n
      else return e

/-! ## Expressions -/

mutual

/-- An expression: a conditional, or an assignment to it; assignments group to the right. -/
def expr : Nat → Parser Expr
  | 0 => tooDeep
  | n + 1 => do
    let target ← conditional n
    match (← peekKind).assignment? with
    | some op =>
      let token ← next
      let value ← expr n
      return .assign (← node token.pos) op target value
    | none => return target

/-- A binary expression, or a choice between two; choices group to the right. -/
def conditional : Nat → Parser Expr
  | 0 => tooDeep
  | n + 1 => do
    let cond ← binary 1 n
    if (← peekKind) = .symbol .question then
      let token ← next
      let yes ← expr n
      let _ ← symbol .colon
      let no ← conditional n
      return .conditional (← node token.pos) cond yes no
    else return cond

/-- Operands joined by operators that bind at least as tightly as `power`. -/
def binary (power : Nat) : Nat → Parser Expr
  | 0 => tooDeep
  | n + 1 => do
    let lhs ← unary n
    binaryTail power lhs n

/-- Operators and operands behind a left operand; operators group to the left. -/
def binaryTail (power : Nat) (lhs : Expr) : Nat → Parser Expr
  | 0 => tooDeep
  | n + 1 => do
    match (← peekKind).binOp? with
    | some op =>
      if op.power < power then return lhs
      let token ← next
      let rhs ← binary (op.power + 1) n
      binaryTail power (.binary (← node token.pos) op lhs rhs) n
    | none => return lhs

def unary : Nat → Parser Expr
  | 0 => tooDeep
  | n + 1 => do
    let token ← peek
    match token.kind.unOp?, step? token.kind with
    | some op, _ =>
      let _ ← next
      let operand ← unary n
      return .unary (← node token.pos) op operand
    | none, some s =>
      let _ ← next
      let target ← unary n
      return .step (← node token.pos) s .stepFirst target
    | none, none =>
      let e ← primary n
      suffixes e n

def primary : Nat → Parser Expr
  | 0 => tooDeep
  | n + 1 => do
    let token ← peek
    match token.kind with
    | .intLit =>
      match Literal.intValue? token.text.toList with
      | some value => leaf token (.int value)
      | none => unexpected "integer literal"
    | .floatLit =>
      match Literal.floatValue? token.text.toList with
      | some value => leaf token (.float value)
      | none => unexpected "float literal"
    | .stringLit =>
      leaf token (.string (Literal.unescape (Literal.stringBody token.text.toList)))
    | .keyword .kwObjectSelf => leaf token .objectSelf
    | .keyword .kwObjectInvalid => leaf token .objectInvalid
    | .ident =>
      if (← peekNth 1).kind = .symbol .leftParen then
        let _ ← next
        let _ ← symbol .leftParen
        let args ← arguments n
        return .call (← node token.pos) token.text args
      else
        let _ ← next
        return .ident (← node token.pos) token.text
    | .symbol .leftParen =>
      let _ ← next
      let inner ← expr n
      let _ ← symbol .rightParen
      return inner
    | .symbol .leftBracket => vector
    | _ => unexpected "expression"

def arguments : Nat → Parser (List Expr)
  | 0 => tooDeep
  | n + 1 => do
    if ← acceptSymbol .rightParen then return []
    argumentList n

def argumentList : Nat → Parser (List Expr)
  | 0 => tooDeep
  | n + 1 => do
    let arg ← expr n
    if ← acceptSymbol .comma then return arg :: (← argumentList n)
    let _ ← symbol .rightParen
    return [arg]

end

def optionalExpr (terminator : Symbol) (n : Nat) : Parser (Option Expr) := do
  if (← peekKind) = .symbol terminator then return none
  return some (← expr n)

def afterEquals {α : Type} (p : Parser α) : Parser (Option α) := do
  if ← acceptSymbol .eq then some <$> p else return none

def parenExpr (n : Nat) : Parser Expr := do
  let _ ← symbol .leftParen
  let e ← expr n
  let _ ← symbol .rightParen
  return e

end Nwscript.Parser
