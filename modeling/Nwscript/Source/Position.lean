/-! # Positions in source files -/

namespace Nwscript

/-- The number of a file among the files of a unit. Like every count of a unit it has no bound. -/
abbrev FileId := Nat

/-- Where a token begins: its file, and the line and column counted in characters from 1, without a
bound. -/
structure Pos where
  file : FileId := 0
  line : Nat := 1
  column : Nat := 1
  deriving DecidableEq, Repr, Inhabited

/-- A stretch of source text, as byte offsets; the end is exclusive. -/
structure Span where
  start : Nat := 0
  stop : Nat := 0
  deriving DecidableEq, Repr, Inhabited

def Pos.text (p : Pos) : String := toString p.line ++ ":" ++ toString p.column

end Nwscript
