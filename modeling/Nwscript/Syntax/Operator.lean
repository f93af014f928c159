import Nwscript.Token.Basic

/-! # Operators

Binary and unary operators, the symbols they are written with and how tightly they bind. -/

namespace Nwscript

inductive BinOp where
  | add
  | sub
  | mul
  | div
  | mod
  | shl
  | shr
  | ushr
  | bitAnd
  | bitOr
  | bitXor
  | logAnd
  | logOr
  | eq
  | ne
  | lt
  | gt
  | le
  | ge
  deriving DecidableEq, Repr

namespace BinOp

def all : List BinOp :=
  [add, sub, mul, div, mod, shl, shr, ushr, bitAnd, bitOr, bitXor, logAnd, logOr, eq, ne, lt, gt, le,
    ge]

def symbol : BinOp → Symbol
  | add => .plus
  | sub => .minus
  | mul => .star
  | div => .slash
  | mod => .percent
  | shl => .shl
  | shr => .shr
  | ushr => .ushr
  | bitAnd => .amp
  | bitOr => .pipe
  | bitXor => .caret
  | logAnd => .ampAmp
  | logOr => .pipePipe
  | eq => .eqEq
  | ne => .notEq
  | lt => .less
  | gt => .greater
  | le => .lessEq
  | ge => .greaterEq

/-- How tightly an operator binds; the greater the tighter. -/
def power : BinOp → Nat
  | logOr => 1
  | logAnd => 2
  | bitOr => 3
  | bitXor => 4
  | bitAnd => 5
  | eq | ne => 6
  | lt | gt | le | ge => 7
  | shl | shr | ushr => 8
  | add | sub => 9
  | mul | div | mod => 10

def text (op : BinOp) : String := String.ofList op.symbol.chars

end BinOp

inductive UnOp where
  | neg
  | not
  | bitNot
  deriving DecidableEq, Repr

namespace UnOp

def all : List UnOp := [neg, not, bitNot]

def symbol : UnOp → Symbol
  | neg => .minus
  | not => .bang
  | bitNot => .tilde

def text (op : UnOp) : String := String.ofList op.symbol.chars

end UnOp

namespace TokenKind

def binOp? : TokenKind → Option BinOp
  | symbol .pipePipe => some .logOr
  | symbol .ampAmp => some .logAnd
  | symbol .pipe => some .bitOr
  | symbol .caret => some .bitXor
  | symbol .amp => some .bitAnd
  | symbol .eqEq => some .eq
  | symbol .notEq => some .ne
  | symbol .less => some .lt
  | symbol .greater => some .gt
  | symbol .lessEq => some .le
  | symbol .greaterEq => some .ge
  | symbol .shl => some .shl
  | symbol .shr => some .shr
  | symbol .ushr => some .ushr
  | symbol .plus => some .add
  | symbol .minus => some .sub
  | symbol .star => some .mul
  | symbol .slash => some .div
  | symbol .percent => some .mod
  | _ => none

def unOp? : TokenKind → Option UnOp
  | symbol .minus => some .neg
  | symbol .bang => some .not
  | symbol .tilde => some .bitNot
  | _ => none

/-- The assignment that a token stands for: plain, or with an operator. -/
def assignment? : TokenKind → Option (Option BinOp)
  | symbol .eq => some none
  | symbol .plusEq => some (some .add)
  | symbol .minusEq => some (some .sub)
  | symbol .starEq => some (some .mul)
  | symbol .slashEq => some (some .div)
  | symbol .percentEq => some (some .mod)
  | symbol .ampEq => some (some .bitAnd)
  | symbol .pipeEq => some (some .bitOr)
  | symbol .caretEq => some (some .bitXor)
  | symbol .shlEq => some (some .shl)
  | symbol .shrEq => some (some .shr)
  | symbol .ushrEq => some (some .ushr)
  | _ => none

end TokenKind
end Nwscript
