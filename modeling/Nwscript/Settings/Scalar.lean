import Nwscript.Text.Digits

/-! # Scalars of a document

A scalar is a run of text, plain or between quotes, and may go over several lines: a line end inside
becomes a space, and empty lines are kept.

* `Position`: where a character stands.
* `Gap`: blanks and line ends inside a scalar, and the text they stand for.
* `scanPlain`, `scanQuoted`: a scalar without and with quotes. -/

namespace Nwscript.Settings

/-- A written value. Only one without quotes can be a number, a truth value or nothing. -/
structure Scalar where
  text : String
  isQuoted : Bool := false
  deriving DecidableEq, Repr

def Scalar.missing : Scalar := ⟨"", false⟩

/-! ## Characters -/

def isAllowed (c : Char) : Bool :=
  let n := c.toNat
  n == 9 || n == 10 || n == 13 || (0x20 ≤ n && n ≤ 0x7E) || n == 0x85 ||
    (0xA0 ≤ n && n ≤ 0xFFFD) || 0x10000 ≤ n

/-- One character for every line end but the separators of lines and paragraphs, which stay. -/
def unifyLines : List Char → List Char
  | [] => []
  | '\r' :: '\n' :: rest => '\n' :: unifyLines rest
  | c :: rest => (if c == '\r' || c.toNat == 0x85 then '\n' else c) :: unifyLines rest

def isSpace (c : Char) : Bool := c == ' ' || c == '\t'

def isBreak (c : Char) : Bool := c == '\n' || c.toNat == 0x2028 || c.toNat == 0x2029

def isGap (c : Char) : Bool := isSpace c || isBreak c

def atGap : List Char → Bool
  | [] => true
  | c :: _ => isGap c

/-- Characters that have a meaning inside brackets. -/
def isFlowMark (c : Char) : Bool := [',', '[', ']', '\x7b', '\x7d'].contains c

/-- Characters that no scalar without quotes starts with. -/
def isMark (c : Char) : Bool :=
  isFlowMark c || ['#', '&', '*', '!', '|', '>', '\'', '"', '%', '@', '\x60'].contains c

/-! ## Positions -/

/-- Where a character stands: the characters before it in the text, the lines before its line, and
the characters before it in the line. -/
structure Position where
  index : Nat := 0
  line : Nat := 0
  column : Nat := 0
  deriving DecidableEq, Repr

def Position.after (p : Position) (c : Char) : Position :=
  if isBreak c then ⟨p.index + 1, p.line + 1, 0⟩ else ⟨p.index + 1, p.line, p.column + 1⟩

/-- The position behind some characters of a line. -/
def Position.add (p : Position) (n : Nat) : Position := ⟨p.index + n, p.line, p.column + n⟩

/-- A mark of three characters stands alone at the start of a line. -/
def atMarker (marker : String) (p : Position) (cs : List Char) : Bool :=
  p.column == 0 && marker.toList.isPrefixOf cs && atGap (cs.drop 3)

/-- A document starts or ends here. -/
def atBoundary (p : Position) (cs : List Char) : Bool := atMarker "---" p cs || atMarker "..." p cs

structure Scanned where
  text : List Char
  rest : List Char
  position : Position
  /-- The blanks that were skipped behind the text hold a line end. -/
  endsLine : Bool := false
  deriving DecidableEq, Repr

def Scanned.prepend (cs : List Char) (s : Scanned) : Scanned := { s with text := cs ++ s.text }

/-! ## Gaps -/

/-- The blanks and line ends between two runs of a scalar, last ones first. -/
inductive Gap where
  | inLine (blanks : List Char)
  /-- The first line end, unless it is escaped, and those behind it. -/
  | lines (first : Option Char) (further : List Char)
  deriving DecidableEq, Repr

namespace Gap

def empty : Gap := .inLine []

/-- The gap with one more blank or line end. Blanks around a line end do not count. -/
def add (g : Gap) (c : Char) : Gap :=
  match g with
  | .inLine blanks => if isBreak c then .lines (some c) [] else .inLine (c :: blanks)
  | .lines first further => .lines first (if isBreak c then c :: further else further)

def endsLine : Gap → Bool
  | .inLine _ => false
  | .lines _ _ => true

/-- The text that a gap stands for: one line end is a space, and of more the first is dropped. -/
def text : Gap → List Char
  | .inLine blanks => blanks.reverse
  | .lines none further => further.reverse
  | .lines (some c) further =>
    if c != '\n' then c :: further.reverse
    else if further.isEmpty then [' '] else further.reverse

end Gap

/-! ## Without quotes -/

/-- A scalar without quotes may start here. -/
def startsPlain (inFlow : Bool) : List Char → Bool
  | [] => false
  | c :: rest =>
    if c == '-' then !atGap rest
    else if c == '?' || c == ':' then !inFlow && !atGap rest
    else !isMark c && !isGap c

/-- A colon here cannot belong to a scalar inside brackets. -/
def isStrayColon (c : Char) (rest : List Char) : Bool :=
  c == ':' && rest.head?.any fun d => isFlowMark d || d == '?'

/-- A run of a scalar without quotes ends in front of this character. -/
def endsRun (inFlow : Bool) (c : Char) (rest : List Char) : Bool :=
  (c == ':' && atGap rest) || (inFlow && isFlowMark c)

/-- The next run of a scalar without quotes does not follow this gap: a comment, a document or a
line with less indentation does. -/
def endsPlain (inFlow : Bool) (indent : Nat) (gap : Gap) (p : Position) (cs : List Char) : Bool :=
  gap != .empty &&
    (cs.head? == some '#' || atBoundary p cs || (!inFlow && p.column < indent))

/-- A scalar without quotes, of lines that are indented by `indent`. A tab is no indentation. -/
def scanPlain (inFlow : Bool) (indent : Nat) : Gap → Position → List Char → Option Scanned
  | gap, p, [] => some ⟨[], [], p, gap.endsLine⟩
  | gap, p, c :: rest =>
    if isGap c then
      if c == '\t' && gap.endsLine && p.column < indent then none
      else scanPlain inFlow indent (gap.add c) (p.after c) rest
    else if endsPlain inFlow indent gap p (c :: rest) then some ⟨[], c :: rest, p, gap.endsLine⟩
    else if inFlow && isStrayColon c rest then none
    else if endsRun inFlow c rest then some ⟨[], c :: rest, p, gap.endsLine⟩
    else (scanPlain inFlow indent .empty (p.after c) rest).map (.prepend (gap.text ++ [c]))

/-! ## Between quotes -/

inductive QuoteState where
  | text (gap : Gap)
  /-- Behind a backslash. -/
  | escape
  | number (digits value : Nat)
  deriving DecidableEq, Repr

def escaped? (c : Char) : Option Char :=
  [('0', 0), ('a', 7), ('b', 8), ('t', 9), ('\t', 9), ('n', 10), ('v', 11), ('f', 12), ('r', 13),
    ('e', 27), (' ', 32), ('"', 34), ('/', 47), ('\\', 92), ('N', 0x85), ('_', 0xA0),
    ('L', 0x2028), ('P', 0x2029)].lookup c |>.map Char.ofNat

def escapeDigits? (c : Char) : Option Nat := [('x', 2), ('u', 4), ('U', 8)].lookup c

/-- A scalar between quotes, behind the opening one. -/
def scanQuoted (quote : Char) : QuoteState → Position → List Char → Option Scanned
  | _, _, [] => none
  | .text gap, p, c :: rest =>
    if isGap c then scanQuoted quote (.text (gap.add c)) (p.after c) rest
    else if atBoundary p (c :: rest) then none
    else if c == quote then
      match quote, rest with
      | '\'', '\'' :: rest =>
        (scanQuoted quote (.text .empty) (p.add 2) rest).map (.prepend (gap.text ++ ['\'']))
      | _, _ => some ⟨gap.text, rest, p.after c, false⟩
    else if c == '\\' && quote == '"' then
      (scanQuoted quote .escape (p.after c) rest).map (.prepend gap.text)
    else (scanQuoted quote (.text .empty) (p.after c) rest).map (.prepend (gap.text ++ [c]))
  | .escape, p, c :: rest =>
    if isBreak c then scanQuoted quote (.text (.lines none [])) (p.after c) rest
    else
      match escaped? c, escapeDigits? c with
      | some e, _ => (scanQuoted quote (.text .empty) (p.after c) rest).map (.prepend [e])
      | none, some n => scanQuoted quote (.number n 0) (p.after c) rest
      | none, none => none
  | .number digits value, p, c :: rest =>
    match Text.digitValue? 16 c with
    | none => none
    | some d =>
      let value := value * 16 + d
      if 1 < digits then scanQuoted quote (.number (digits - 1) value) (p.after c) rest
      else if value.isValidChar then
        (scanQuoted quote (.text .empty) (p.after c) rest).map (.prepend [Char.ofNat value])
      else none

end Nwscript.Settings
