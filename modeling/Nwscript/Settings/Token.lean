import Nwscript.Settings.Scalar

/-! # Tokens of a document

A document is read as a list of tokens. Indentation is written as tokens too, and a scalar is found
to be a name only at the colon behind it, where the tokens of a name are put in front of it.

* `Token`: marks, brackets, scalars, starts and ends of indented parts.
* `Layout`: the tokens so far with what decides on the next ones.
* `skipBlanks`: the way to the next token.
* `scanTokens`: all tokens of a text. -/

namespace Nwscript.Settings

inductive Token where
  /-- An indented mapping starts. -/
  | mapStart
  | listStart
  /-- The last indented mapping or list that started ends. -/
  | blockEnd
  /-- The mark of an item in an indented list. -/
  | dash
  /-- A name comes next. -/
  | key
  /-- The value of a name comes next. -/
  | value
  | openList
  | closeList
  | openMap
  | closeMap
  | comma
  | documentStart
  | documentEnd
  | scalar (s : Scalar)
  deriving DecidableEq, Repr

structure PossibleKey where
  /-- The tokens before it, last one first. -/
  before : List Token
  position : Position
  /-- It stands in the column of the names around it, so that it must be one. -/
  isRequired : Bool
  deriving DecidableEq, Repr

/-- The name ends in its line and within 1024 characters. -/
def PossibleKey.reaches (k : PossibleKey) (p : Position) : Bool :=
  k.position.line == p.line && p.index ≤ k.position.index + 1024

structure Layout where
  /-- The tokens, last one first. -/
  tokens : List Token := []
  /-- The columns of the open indented parts, deepest first. -/
  columns : List Nat := []
  /-- The possible name inside the innermost brackets. -/
  possible : Option PossibleKey := none
  /-- The possible names outside of each open bracket, innermost first. -/
  outer : List (Option PossibleKey) := []
  /-- A name without a mark may start here. -/
  keyAllowed : Bool := true
  deriving DecidableEq, Repr

namespace Layout

def inFlow (l : Layout) : Bool := !l.outer.isEmpty

/-- The least column of text that goes on from an earlier line. -/
def indent (l : Layout) : Nat :=
  match l.columns with
  | [] => 0
  | column :: _ => column + 1

def push (l : Layout) (t : Token) : Layout := { l with tokens := t :: l.tokens }

def allowKey (l : Layout) (allowed : Bool) : Layout := { l with keyAllowed := allowed }

/-! ## Indentation -/

/-- End the indented parts that satisfy `p`, from the deepest on. -/
def closeWhile (l : Layout) (p : Nat → Bool) : Layout :=
  if l.inFlow then l
  else { l with
    tokens := List.replicate (l.columns.takeWhile p).length .blockEnd ++ l.tokens
    columns := l.columns.dropWhile p }

def openBlock (l : Layout) (start : Token) (column : Nat) : Layout :=
  if l.inFlow || column < l.indent then l
  else { l with tokens := start :: l.tokens, columns := column :: l.columns }

/-! ## Names -/

def dropKey (l : Layout) : Option Layout :=
  if l.possible.any PossibleKey.isRequired then none else some { l with possible := none }

def saveKey (l : Layout) (p : Position) : Option Layout :=
  if !l.keyAllowed then some l
  else
    let isRequired := !l.inFlow && l.columns.head? == some p.column
    l.dropKey.map fun l => { l with possible := some ⟨l.tokens, p, isRequired⟩ }

/-- What was a possible name is none, if it is too far away. -/
def freshKey (l : Layout) (p : Position) : Option Layout :=
  if l.possible.any (·.reaches p) then some l else l.dropKey

/-- Put the token of a name in front of the possible name, with the start of a mapping where it is
the first one. -/
def takeKey (l : Layout) (k : PossibleKey) : Layout :=
  let since := l.tokens.take (l.tokens.length - k.before.length)
  let before := { l with tokens := k.before, possible := none }
  let opened := before.openBlock .mapStart k.position.column
  { opened with tokens := since ++ .key :: opened.tokens }

/-! ## Marks -/

def blockMark (l : Layout) (start t : Token) (p : Position) : Option Layout :=
  if !l.inFlow && !l.keyAllowed then none
  else (l.openBlock start p.column).dropKey.map (·.push t)

def dash (l : Layout) (p : Position) : Option Layout :=
  (l.blockMark .listStart .dash p).map (·.allowKey true)

def keyMark (l : Layout) (p : Position) : Option Layout :=
  (l.blockMark .mapStart .key p).map (·.allowKey !l.inFlow)

def valueMark (l : Layout) (p : Position) : Option Layout :=
  match l.possible with
  | some k => some (((l.takeKey k).push .value).allowKey false)
  | none => (l.blockMark .mapStart .value p).map (·.allowKey !l.inFlow)

def openBracket (l : Layout) (t : Token) (p : Position) : Option Layout :=
  (l.saveKey p).map fun l =>
    { l with tokens := t :: l.tokens, possible := none, outer := l.possible :: l.outer,
             keyAllowed := true }

def closeBracket (l : Layout) (t : Token) : Option Layout :=
  l.dropKey.map fun l =>
    let inside := (l.push t).allowKey false
    match l.outer with
    | [] => inside
    | possible :: outer => { inside with possible := possible, outer := outer }

def comma (l : Layout) : Option Layout := l.dropKey.map fun l => (l.push .comma).allowKey true

def boundary (l : Layout) (t : Token) : Option Layout :=
  (l.closeWhile fun _ => true).dropKey.map fun l => (l.push t).allowKey false

def finish (l : Layout) : Option (List Token) :=
  (l.closeWhile fun _ => true).dropKey.map fun l => l.tokens.reverse

end Layout

/-! ## Reading -/

structure Cursor where
  layout : Layout := {}
  position : Position := {}
  rest : List Char
  deriving DecidableEq, Repr

namespace Cursor

def skip (c : Cursor) (n : Nat) (l : Option Layout) : Option Cursor :=
  l.map fun l => ⟨l, c.position.add n, c.rest.drop n⟩

/-- Take what was scanned as a scalar. A name may follow it on a new line only. -/
def take (c : Cursor) (isQuoted : Bool) (found : Option Scanned) : Option Cursor := do
  let s ← found
  let l ← c.layout.saveKey c.position
  let token := Token.scalar ⟨String.ofList s.text, isQuoted⟩
  return ⟨(l.push token).allowKey s.endsLine, s.position, s.rest⟩

end Cursor

/-- The way to the next token: blanks, comments and line ends, behind which a name may start. A tab
stands only where no name may start, and a mark of the byte order at the start of a line. -/
def skipBlanks (l : Layout) : (inComment : Bool) → Position → List Char → Cursor
  | _, p, [] => ⟨l, p, []⟩
  | inComment, p, c :: rest =>
    if isBreak c then skipBlanks (l.allowKey (l.keyAllowed || !l.inFlow)) false (p.after c) rest
    else if inComment || c == ' ' || (c == '\t' && (l.inFlow || !l.keyAllowed)) ||
        (c.toNat == 0xFEFF && p.column == 0) then
      skipBlanks l inComment (p.after c) rest
    else if c == '#' then skipBlanks l true (p.after c) rest
    else ⟨l, p, c :: rest⟩

/-- At the next token, with the indented parts ended that it is no part of. -/
def Cursor.next (c : Cursor) : Option Cursor :=
  let c := skipBlanks c.layout false c.position c.rest
  (c.layout.freshKey c.position).map fun l =>
    { c with layout := l.closeWhile (c.position.column < ·) }

def Cursor.read (cur : Cursor) (c : Char) (rest : List Char) : Option Cursor :=
  let l := cur.layout
  let p := cur.position
  let text := c :: rest
  if atMarker "---" p text then cur.skip 3 (l.boundary .documentStart)
  else if atMarker "..." p text then cur.skip 3 (l.boundary .documentEnd)
  else if c == '[' then cur.skip 1 (l.openBracket .openList p)
  else if c == '\x7b' then cur.skip 1 (l.openBracket .openMap p)
  else if c == ']' then cur.skip 1 (l.closeBracket .closeList)
  else if c == '\x7d' then cur.skip 1 (l.closeBracket .closeMap)
  else if c == ',' then cur.skip 1 l.comma
  else if c == '-' && atGap rest then cur.skip 1 (l.dash p)
  else if c == '?' && (l.inFlow || atGap rest) then cur.skip 1 (l.keyMark p)
  else if c == ':' && (l.inFlow || atGap rest) then cur.skip 1 (l.valueMark p)
  else if c == '\'' || c == '"' then
    cur.take true (scanQuoted c (.text .empty) (p.after c) rest)
  else if startsPlain l.inFlow text then
    cur.take false (scanPlain l.inFlow l.indent .empty p text)
  else none

/-- All tokens, at most one for each character that is left. -/
def scanFrom : Nat → Cursor → Option (List Token)
  | 0, _ => none
  | steps + 1, c => do
    let c ← c.next
    match c.rest with
    | [] => c.layout.finish
    | d :: rest => scanFrom steps (← c.read d rest)

def scanTokens (text : List Char) : Option (List Token) :=
  if text.all isAllowed then
    let lines := unifyLines text
    scanFrom (lines.length + 1) { rest := lines }
  else none

end Nwscript.Settings
