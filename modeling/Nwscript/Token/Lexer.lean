import Nwscript.Diagnostic
import Nwscript.Text.Blank
import Nwscript.Text.Quoted
import Nwscript.Token.Basic
import Nwscript.Token.Literal

/-! # From text to tokens

A cursor is the text that is left with the place it begins at. `scanToken` reads one token from a
cursor; after an error the cursor stands at the end of the line, so that each line is reported at
most once. -/

namespace Nwscript

/-! ## Errors -/

inductive NumberFault where
  | missingHexDigits
  | missingBinaryDigits
  | strayCharacters
  | outOfRange
  deriving DecidableEq, Repr

def NumberFault.text : NumberFault → String
  | .missingHexDigits => "missing hexadecimal digits"
  | .missingBinaryDigits => "missing binary digits"
  | .strayCharacters => "unexpected characters in numeric literal"
  | .outOfRange => "numeric literal out of range"

inductive DirectiveFault where
  | nameExpected
  | unterminatedName
  | emptyDefinition
  | unknown (word : String)
  deriving DecidableEq, Repr

def DirectiveFault.text : DirectiveFault → String
  | .nameExpected => "expected quoted name after #include"
  | .unterminatedName => "unterminated #include name"
  | .emptyDefinition => "empty #define"
  | .unknown word => "unknown directive #" ++ word

inductive LexFault where
  | unknownCharacter (c : Char)
  | unterminatedString
  | unterminatedComment
  | malformedNumber (fault : NumberFault) (text : String)
  | invalidEscape (c : Char)
  | malformedDirective (fault : DirectiveFault)
  deriving DecidableEq, Repr

namespace LexFault

def code : LexFault → DiagCode
  | unknownCharacter _ => .unknownCharacter
  | unterminatedString => .unterminatedString
  | unterminatedComment => .unterminatedComment
  | malformedNumber _ _ => .malformedNumber
  | invalidEscape _ => .invalidEscape
  | malformedDirective _ => .malformedDirective

def message : LexFault → String
  | unknownCharacter c => "unknown character " ++ Text.quotedChar c
  | unterminatedString => "unterminated string literal"
  | unterminatedComment => "unterminated block comment"
  | malformedNumber fault text => "malformed number, " ++ fault.text ++ ": " ++ text
  | invalidEscape c => "invalid escape sequence '\\" ++ String.singleton c ++ "'"
  | malformedDirective fault => "malformed directive, " ++ fault.text

end LexFault

structure LexError where
  fault : LexFault
  pos : Pos
  deriving DecidableEq, Repr

def LexError.diagnostic (e : LexError) : Diagnostic :=
  { stage := .lex, severity := .error, code := e.fault.code, message := e.fault.message,
    pos := some e.pos }

/-! ## The cursor -/

/-- A place in a text: the byte offset, and the line and column counted in characters from 1. -/
structure Place where
  offset : Nat := 0
  line : Nat := 1
  column : Nat := 1
  deriving DecidableEq, Repr, Inhabited

def Place.step (p : Place) (c : Char) : Place :=
  if c = '\n' then ⟨p.offset + c.utf8Size, p.line + 1, 1⟩
  else ⟨p.offset + c.utf8Size, p.line, p.column + 1⟩

def Place.pos (p : Place) (file : FileId) : Pos := ⟨file, p.line, p.column⟩

/-- The text that is left and the place it begins at. -/
structure Cursor where
  rest : List Char
  place : Place
  deriving DecidableEq, Repr, Inhabited

namespace Cursor

/-- The next character. The end of the text reads as the zero character. -/
def first (c : Cursor) : Char := c.rest.headD '\x00'

def bump (c : Cursor) : Cursor :=
  match c.rest with
  | [] => c
  | x :: rest => ⟨rest, c.place.step x⟩

def bumpMany : Nat → Cursor → Cursor
  | 0, c => c
  | n + 1, c => bumpMany n c.bump

def skipFrom (p : Char → Bool) : List Char → Place → Cursor
  | [], place => ⟨[], place⟩
  | x :: rest, place => if p x then skipFrom p rest (place.step x) else ⟨x :: rest, place⟩

def skipWhile (p : Char → Bool) (c : Cursor) : Cursor := skipFrom p c.rest c.place

def lineEnd (c : Cursor) : Cursor := c.skipWhile (· ≠ '\n')

def textTo (start stop : Cursor) : List Char :=
  match Text.splitBytes start.rest (stop.place.offset - start.place.offset) [] with
  | some (taken, _) => taken.reverse
  | none => []

end Cursor

/-! ## Character classes -/

def isSpace (c : Char) : Bool := c = ' ' || c = '\t' || c = '\r' || c = '\n'

def isLetter (c : Char) : Bool := ('a' ≤ c && c ≤ 'z') || ('A' ≤ c && c ≤ 'Z')

def isHexDigit (c : Char) : Bool :=
  Decimal.isDigit c || ('a' ≤ c && c ≤ 'f') || ('A' ≤ c && c ≤ 'F')

def startsName (c : Char) : Bool := c = '_' || isLetter c

def continuesName (c : Char) : Bool := c = '_' || isLetter c || Decimal.isDigit c

/-! ## Space and comments -/

/-- What a scan for the next token stands in. -/
inductive Gap where
  | space
  | lineComment
  | blockComment (opened : Place)

/-- Skip spaces and comments. A comment that is not closed gives the place it was opened at. -/
def skipGap : List Char → Gap → Place → Except Place Unit × Cursor
  | [], .blockComment opened, p => (.error opened, ⟨[], p⟩)
  | [], _, p => (.ok (), ⟨[], p⟩)
  | '*' :: '/' :: rest, .blockComment _, p => skipGap rest .space ((p.step '*').step '/')
  | c :: rest, .blockComment opened, p => skipGap rest (.blockComment opened) (p.step c)
  | c :: rest, .lineComment, p =>
    skipGap rest (if c = '\n' then .space else .lineComment) (p.step c)
  | '/' :: '/' :: rest, .space, p => skipGap rest .lineComment ((p.step '/').step '/')
  | '/' :: '*' :: rest, .space, p => skipGap rest (.blockComment p) ((p.step '/').step '*')
  | c :: rest, .space, p =>
    if isSpace c then skipGap rest .space (p.step c) else (.ok (), ⟨c :: rest, p⟩)

/-! ## Numbers -/

def scanRadix (isDigit : Char → Bool) (fault : NumberFault) (c : Cursor) :
    Except NumberFault TokenKind × Cursor :=
  let stop := c.skipWhile isDigit
  (if stop.place.offset = c.place.offset then .error fault else .ok .intLit, stop)

def scanDecimal (c : Cursor) : TokenKind × Cursor :=
  let whole := c.skipWhile Decimal.isDigit
  let (kind, stop) :=
    if whole.first = '.' then (TokenKind.floatLit, whole.bump.skipWhile Decimal.isDigit)
    else (.intLit, whole)
  if stop.first = 'f' || stop.first = 'F' then (.floatLit, stop.bump) else (kind, stop)

def scanNumberForm (start : Cursor) : Except NumberFault TokenKind × Cursor :=
  match start.rest with
  | '0' :: 'x' :: _ => scanRadix isHexDigit .missingHexDigits (start.bumpMany 2)
  | '0' :: 'X' :: _ => scanRadix isHexDigit .missingHexDigits (start.bumpMany 2)
  | '0' :: 'b' :: _ => scanRadix (fun c => c = '0' || c = '1') .missingBinaryDigits (start.bumpMany 2)
  | '0' :: 'B' :: _ => scanRadix (fun c => c = '0' || c = '1') .missingBinaryDigits (start.bumpMany 2)
  | _ => let (kind, stop) := scanDecimal start; (.ok kind, stop)

def numberInRange (kind : TokenKind) (text : List Char) : Bool :=
  match kind with
  | .floatLit => (Literal.floatValue? text).isSome
  | _ => (Literal.intValue? text).isSome

def scanNumber (start : Cursor) : Except NumberFault TokenKind × Cursor :=
  match scanNumberForm start with
  | (.error fault, stop) => (.error fault, stop)
  | (.ok kind, stop) =>
    if continuesName stop.first then (.error .strayCharacters, stop.skipWhile continuesName)
    else if numberInRange kind (start.textTo stop) then (.ok kind, stop)
    else (.error .outOfRange, stop)

/-! ## Strings -/

def scanString : List Char → Place → Except LexFault Unit × Cursor
  | [], p => (.error .unterminatedString, ⟨[], p⟩)
  | '"' :: rest, p => (.ok (), ⟨rest, p.step '"'⟩)
  | '\n' :: rest, p => (.error .unterminatedString, ⟨'\n' :: rest, p⟩)
  | '\\' :: [], p => (.error (.invalidEscape '\x00'), ⟨[], p.step '\\'⟩)
  | '\\' :: 'x' :: a :: b :: rest, p =>
    let behind := (p.step '\\').step 'x'
    if isHexDigit a && isHexDigit b then scanString rest ((behind.step a).step b)
    else (.error (.invalidEscape 'x'), ⟨a :: b :: rest, behind⟩)
  | '\\' :: 'x' :: rest, p => (.error (.invalidEscape 'x'), ⟨rest, (p.step '\\').step 'x'⟩)
  | '\\' :: c :: rest, p =>
    if c = 'n' || c = 't' || c = '"' || c = '\\' then scanString rest ((p.step '\\').step c)
    else (.error (.invalidEscape c), ⟨c :: rest, p.step '\\'⟩)
  | c :: rest, p => scanString rest (p.step c)

/-! ## Directives -/

def isInlineSpace (c : Char) : Bool := c = ' ' || c = '\t'

/-- The line up to a comment, put in front of `taken` in reverse. -/
def beforeComment : List Char → List Char → List Char
  | [], taken => taken.reverse
  | '/' :: '/' :: _, taken => taken.reverse
  | c :: rest, taken => beforeComment rest (c :: taken)

def scanDirective (c : Cursor) :
    Except DirectiveFault (TokenKind × List Char × Span) × Cursor :=
  let wordEnd := c.skipWhile continuesName
  let word := String.ofList (c.textTo wordEnd)
  let body := wordEnd.skipWhile isInlineSpace
  if word = "include" then
    if body.first = '"' then
      let name := body.bump
      let nameEnd := name.skipWhile fun x => x ≠ '"' && x ≠ '\n'
      if nameEnd.first = '"' then
        (.ok (.includeLine, name.textTo nameEnd, ⟨name.place.offset, nameEnd.place.offset⟩),
          nameEnd.bump)
      else (.error .unterminatedName, nameEnd)
    else (.error .nameExpected, body)
  else if word = "define" then
    let stop := body.lineEnd
    let value := Text.trimEnd (beforeComment (body.textTo stop) [])
    if value.isEmpty then (.error .emptyDefinition, stop)
    else
      let start := body.place.offset
      (.ok (.defineLine, value, ⟨start, start + Text.utf8Length value⟩), stop)
  else (.error (.unknown word), wordEnd)

/-! ## Tokens -/

def nameKind (text : String) : TokenKind :=
  match Keyword.ofText? text with
  | some k => .keyword k
  | none => .ident

def tokenTo (file : FileId) (start stop : Cursor) (kind : TokenKind) : Token :=
  { kind, text := String.ofList (start.textTo stop),
    span := ⟨start.place.offset, stop.place.offset⟩, pos := start.place.pos file }

def failAt (file : FileId) (start stop : Cursor) (fault : LexFault) :
    Except LexError Token × Cursor :=
  (.error ⟨fault, start.place.pos file⟩, stop.lineEnd)

def scanLexeme (file : FileId) (c : Char) (start : Cursor) : Except LexError Token × Cursor :=
  if Decimal.isDigit c || (c = '.' && Decimal.isDigit start.bump.first) then
    match scanNumber start with
    | (.ok kind, stop) => (.ok (tokenTo file start stop kind), stop)
    | (.error fault, stop) =>
      failAt file start stop (.malformedNumber fault (String.ofList (start.textTo stop)))
  else if c = '"' then
    match scanString start.bump.rest start.bump.place with
    | (.ok (), stop) => (.ok (tokenTo file start stop .stringLit), stop)
    | (.error fault, stop) => failAt file start stop fault
  else if c = '#' then
    match scanDirective start.bump with
    | (.ok (kind, text, span), stop) =>
      (.ok { kind, text := String.ofList text, span, pos := start.place.pos file }, stop)
    | (.error fault, stop) => failAt file start stop (.malformedDirective fault)
  else if startsName c then
    let stop := start.skipWhile continuesName
    (.ok (tokenTo file start stop (nameKind (String.ofList (start.textTo stop)))), stop)
  else
    match Symbol.lead? start.rest with
    | some s =>
      let stop := start.bumpMany s.chars.length
      (.ok (tokenTo file start stop (.symbol s)), stop)
    | none => failAt file start start.bump (.unknownCharacter c)

/-- The next token behind spaces and comments; at the end of the text the token of its end. -/
def scanToken (file : FileId) (c : Cursor) : Except LexError Token × Cursor :=
  match skipGap c.rest .space c.place with
  | (.error opened, stop) => (.error ⟨.unterminatedComment, opened.pos file⟩, stop)
  | (.ok (), start) =>
    match start.rest with
    | [] => (.ok (tokenTo file start start .eof), start)
    | x :: _ => scanLexeme file x start

/-! ## The lexer -/

structure Lexer where
  source : String
  file : FileId
  cursor : Cursor
  /-- The end of the text has been handed out. -/
  done : Bool
  deriving Repr

namespace Lexer

def new (source : String) (file : FileId) : Lexer :=
  { source, file, cursor := ⟨source.toList, {}⟩, done := false }

def reset (l : Lexer) : Lexer := new l.source l.file

def isEnd : Except LexError Token → Bool
  | .ok t => t.kind == .eof
  | .error _ => false

def nextToken (l : Lexer) : Except LexError Token × Lexer :=
  let (result, cursor) := scanToken l.file l.cursor
  (result, { l with cursor, done := l.done || isEnd result })

/-- The next token or error, or nothing once the end has been handed out. -/
def next? (l : Lexer) : Option (Except LexError Token) × Lexer :=
  if l.done then (none, l)
  else
    let (result, l) := l.nextToken
    (some result, l)

def collect : Nat → Lexer → List (Except LexError Token) → List (Except LexError Token)
  | 0, _, taken => taken.reverse
  | steps + 1, l, taken =>
    match l.next? with
    | (some result, l) => collect steps l (result :: taken)
    | (none, _) => taken.reverse

end Lexer

/-- All tokens and errors of a text, up to the token of its end. Each of them but the last takes up
at least one character. -/
def lex (source : String) (file : FileId) : List (Except LexError Token) :=
  Lexer.collect (source.length + 1) (Lexer.new source file) []

def keepTokens (results : List (Except LexError Token)) : List Token :=
  results.filterMap fun
    | .ok t => some t
    | .error _ => none

def tokens (source : String) (file : FileId) : List Token := keepTokens (lex source file)

end Nwscript
