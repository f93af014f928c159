import Nwscript.Source.Position

/-! # Tokens

Keywords, symbols and the kinds of tokens. A token carries its own text, so a reader of tokens needs
no source file. -/

namespace Nwscript

inductive Keyword where
  | kwIf
  | kwElse
  | kwWhile
  | kwDo
  | kwFor
  | kwSwitch
  | kwCase
  | kwDefault
  | kwBreak
  | kwContinue
  | kwReturn
  | kwStruct
  | kwConst
  | kwVoid
  | kwInt
  | kwFloat
  | kwString
  | kwObject
  | kwVector
  | kwAction
  | kwObjectSelf
  | kwObjectInvalid
  deriving DecidableEq, Repr

namespace Keyword

def all : List Keyword :=
  [kwIf, kwElse, kwWhile, kwDo, kwFor, kwSwitch, kwCase, kwDefault, kwBreak, kwContinue, kwReturn,
    kwStruct, kwConst, kwVoid, kwInt, kwFloat, kwString, kwObject, kwVector, kwAction, kwObjectSelf,
    kwObjectInvalid]

def text : Keyword → String
  | kwIf => "if"
  | kwElse => "else"
  | kwWhile => "while"
  | kwDo => "do"
  | kwFor => "for"
  | kwSwitch => "switch"
  | kwCase => "case"
  | kwDefault => "default"
  | kwBreak => "break"
  | kwContinue => "continue"
  | kwReturn => "return"
  | kwStruct => "struct"
  | kwConst => "const"
  | kwVoid => "void"
  | kwInt => "int"
  | kwFloat => "float"
  | kwString => "string"
  | kwObject => "object"
  | kwVector => "vector"
  | kwAction => "action"
  | kwObjectSelf => "OBJECT_SELF"
  | kwObjectInvalid => "OBJECT_INVALID"

def name : Keyword → String
  | kwIf => "If"
  | kwElse => "Else"
  | kwWhile => "While"
  | kwDo => "Do"
  | kwFor => "For"
  | kwSwitch => "Switch"
  | kwCase => "Case"
  | kwDefault => "Default"
  | kwBreak => "Break"
  | kwContinue => "Continue"
  | kwReturn => "Return"
  | kwStruct => "Struct"
  | kwConst => "Const"
  | kwVoid => "Void"
  | kwInt => "Int"
  | kwFloat => "Float"
  | kwString => "String"
  | kwObject => "Object"
  | kwVector => "Vector"
  | kwAction => "Action"
  | kwObjectSelf => "ObjectSelf"
  | kwObjectInvalid => "ObjectInvalid"

def isType : Keyword → Bool
  | kwVoid | kwInt | kwFloat | kwString | kwObject | kwVector | kwAction | kwStruct => true
  | _ => false

def ofText? (word : String) : Option Keyword := all.find? fun k => k.text == word

end Keyword

inductive Symbol where
  | plus
  | minus
  | star
  | slash
  | percent
  | plusPlus
  | minusMinus
  | eq
  | plusEq
  | minusEq
  | starEq
  | slashEq
  | percentEq
  | ampEq
  | pipeEq
  | caretEq
  | shlEq
  | shrEq
  | ushrEq
  | eqEq
  | notEq
  | less
  | greater
  | lessEq
  | greaterEq
  | shl
  | shr
  | ushr
  | amp
  | pipe
  | caret
  | tilde
  | bang
  | ampAmp
  | pipePipe
  | question
  | colon
  | semicolon
  | comma
  | dot
  | leftParen
  | rightParen
  | leftBrace
  | rightBrace
  | leftBracket
  | rightBracket
  deriving DecidableEq, Repr

namespace Symbol

/-- All symbols, longer ones before shorter ones. -/
def all : List Symbol :=
  [ushrEq, shlEq, shrEq, ushr, plusPlus, minusMinus, plusEq, minusEq, starEq, slashEq, percentEq,
    ampEq, pipeEq, caretEq, eqEq, notEq, lessEq, greaterEq, shl, shr, ampAmp, pipePipe, plus, minus,
    star, slash, percent, eq, less, greater, amp, pipe, caret, tilde, bang, question, colon,
    semicolon, comma, dot, leftParen, rightParen, leftBrace, rightBrace, leftBracket, rightBracket]

def chars : Symbol → List Char
  | plus => ['+']
  | minus => ['-']
  | star => ['*']
  | slash => ['/']
  | percent => ['%']
  | plusPlus => ['+', '+']
  | minusMinus => ['-', '-']
  | eq => ['=']
  | plusEq => ['+', '=']
  | minusEq => ['-', '=']
  | starEq => ['*', '=']
  | slashEq => ['/', '=']
  | percentEq => ['%', '=']
  | ampEq => ['&', '=']
  | pipeEq => ['|', '=']
  | caretEq => ['^', '=']
  | shlEq => ['<', '<', '=']
  | shrEq => ['>', '>', '=']
  | ushrEq => ['>', '>', '>', '=']
  | eqEq => ['=', '=']
  | notEq => ['!', '=']
  | less => ['<']
  | greater => ['>']
  | lessEq => ['<', '=']
  | greaterEq => ['>', '=']
  | shl => ['<', '<']
  | shr => ['>', '>']
  | ushr => ['>', '>', '>']
  | amp => ['&']
  | pipe => ['|']
  | caret => ['^']
  | tilde => ['~']
  | bang => ['!']
  | ampAmp => ['&', '&']
  | pipePipe => ['|', '|']
  | question => ['?']
  | colon => [':']
  | semicolon => [';']
  | comma => [',']
  | dot => ['.']
  | leftParen => ['(']
  | rightParen => [')']
  | leftBrace => ['\x7b']
  | rightBrace => ['\x7d']
  | leftBracket => ['[']
  | rightBracket => [']']

def name : Symbol → String
  | plus => "Plus"
  | minus => "Minus"
  | star => "Star"
  | slash => "Slash"
  | percent => "Percent"
  | plusPlus => "PlusPlus"
  | minusMinus => "MinusMinus"
  | eq => "Eq"
  | plusEq => "PlusEq"
  | minusEq => "MinusEq"
  | starEq => "StarEq"
  | slashEq => "SlashEq"
  | percentEq => "PercentEq"
  | ampEq => "AmpEq"
  | pipeEq => "PipeEq"
  | caretEq => "CaretEq"
  | shlEq => "ShlEq"
  | shrEq => "ShrEq"
  | ushrEq => "UShrEq"
  | eqEq => "EqEq"
  | notEq => "NotEq"
  | less => "Less"
  | greater => "Greater"
  | lessEq => "LessEq"
  | greaterEq => "GreaterEq"
  | shl => "Shl"
  | shr => "Shr"
  | ushr => "UShr"
  | amp => "Amp"
  | pipe => "Pipe"
  | caret => "Caret"
  | tilde => "Tilde"
  | bang => "Bang"
  | ampAmp => "AmpAmp"
  | pipePipe => "PipePipe"
  | question => "Question"
  | colon => "Colon"
  | semicolon => "Semicolon"
  | comma => "Comma"
  | dot => "Dot"
  | leftParen => "LeftParen"
  | rightParen => "RightParen"
  | leftBrace => "LeftBrace"
  | rightBrace => "RightBrace"
  | leftBracket => "LeftBracket"
  | rightBracket => "RightBracket"

def lead? (cs : List Char) : Option Symbol := all.find? fun s => s.chars.isPrefixOf cs

end Symbol

inductive TokenKind where
  /-- An include directive; the text is the name without its quotes. -/
  | includeLine
  | defineLine
  | ident
  | keyword (word : Keyword)
  | intLit
  | floatLit
  /-- A string literal; the text has its quotes. -/
  | stringLit
  | symbol (s : Symbol)
  /-- The end of the source. -/
  | eof
  deriving DecidableEq, Repr

namespace TokenKind

def text : TokenKind → String
  | includeLine => "#include"
  | defineLine => "#define"
  | ident => "identifier"
  | keyword k => "'" ++ k.text ++ "'"
  | intLit => "integer literal"
  | floatLit => "float literal"
  | stringLit => "string literal"
  | symbol s => "'" ++ String.ofList s.chars ++ "'"
  | eof => "end of file"

def name : TokenKind → String
  | includeLine => "Include"
  | defineLine => "Define"
  | ident => "Ident"
  | keyword k => "Keyword(" ++ k.name ++ ")"
  | intLit => "IntLit"
  | floatLit => "FloatLit"
  | stringLit => "StringLit"
  | symbol s => s.name
  | eof => "EOF"

def all : List TokenKind :=
  [includeLine, defineLine, ident, intLit, floatLit, stringLit, eof] ++
    Keyword.all.map keyword ++ Symbol.all.map symbol

end TokenKind

structure Token where
  kind : TokenKind
  text : String
  span : Span
  pos : Pos
  deriving DecidableEq, Repr

def Token.describe (t : Token) : String :=
  match t.kind with
  | .ident => "identifier '" ++ t.text ++ "'"
  | kind => kind.text

end Nwscript
