import Nwscript.Diagnostic
import Nwscript.Token.Basic

/-! # Reading tokens

A stream of tokens with look ahead. Behind its last token it goes on with the token of the end. -/

namespace Nwscript

inductive SyntaxFault where
  /-- Something else stands where a token was expected. -/
  | unexpected (expected found : String)
  | missingDefault (param : String)
  /-- The reader ran out of steps. -/
  | tooDeep
  deriving DecidableEq, Repr

structure SyntaxError where
  fault : SyntaxFault
  pos : Pos
  deriving DecidableEq, Repr

namespace SyntaxError

def code (e : SyntaxError) : DiagCode :=
  match e.fault with
  | .unexpected _ _ => .unexpectedToken
  | .missingDefault _ => .nonTrailingDefault
  | .tooDeep => .internal

def message (e : SyntaxError) : String :=
  match e.fault with
  | .unexpected expected found => "expected " ++ expected ++ ", found " ++ found
  | .missingDefault param =>
    "parameter '" ++ param ++ "' without a default follows a parameter with one"
  | .tooDeep => "nesting too deep"

def diagnostic (e : SyntaxError) : Diagnostic :=
  { stage := .parse, severity := .error, code := e.code, message := e.message, pos := some e.pos }

end SyntaxError

def endToken : Token := { kind := .eof, text := "", span := {}, pos := {} }

structure TokenStream where
  rest : List Token
  eof : Token
  deriving Repr

namespace TokenStream

def ofTokens (ts : List Token) : TokenStream :=
  { rest := ts
    eof :=
      match ts.getLast? with
      | some t => if t.kind = .eof then t else endToken
      | none => endToken }

def peekNth (s : TokenStream) (n : Nat) : Token := s.rest[n]?.getD s.eof

def peek (s : TokenStream) : Token := s.rest.headD s.eof

def peekKind (s : TokenStream) : TokenKind := s.peek.kind

def atEnd (s : TokenStream) : Bool := s.peekKind == .eof

def advance (s : TokenStream) : TokenStream := { s with rest := s.rest.tail }

def unexpected (s : TokenStream) (expected : String) : SyntaxError :=
  ⟨.unexpected expected s.peek.describe, s.peek.pos⟩

def accept (s : TokenStream) (kind : TokenKind) : Bool × TokenStream :=
  if s.peekKind = kind then (true, s.advance) else (false, s)

def consume (s : TokenStream) (kind : TokenKind) : Except SyntaxError Token × TokenStream :=
  if s.peekKind = kind then (.ok s.peek, s.advance) else (.error (s.unexpected kind.text), s)

end TokenStream
end Nwscript
