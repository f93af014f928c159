import Nwscript.Syntax.Operator
import Nwscript.Value.Basic

/-! # Operators on constant values

Integers wrap at 32 bits. A float and an integer may be mixed in arithmetic, not in comparisons. -/

namespace Nwscript

inductive FoldFault where
  | divisionByZero
  | unsupported
  deriving DecidableEq, Repr

/-- A binary operator on integers. Shift amounts are taken modulo 32. -/
def foldInt (op : BinOp) (a b : Int32) : Except FoldFault Value :=
  match op with
  | .add => .ok (.int (a + b))
  | .sub => .ok (.int (a - b))
  | .mul => .ok (.int (a * b))
  | .div => if b = 0 then .error .divisionByZero else .ok (.int (a / b))
  | .mod => if b = 0 then .error .divisionByZero else .ok (.int (a % b))
  | .shl => .ok (.int (a <<< b))
  | .shr => .ok (.int (a >>> b))
  | .ushr => .ok (.int (a.toUInt32 >>> b.toUInt32).toInt32)
  | .bitAnd => .ok (.int (a &&& b))
  | .bitOr => .ok (.int (a ||| b))
  | .bitXor => .ok (.int (a ^^^ b))
  | .logAnd => .ok (.truth (a != 0 && b != 0))
  | .logOr => .ok (.truth (a != 0 || b != 0))
  | .eq => .ok (.truth (a == b))
  | .ne => .ok (.truth (a != b))
  | .lt => .ok (.truth (a < b))
  | .gt => .ok (.truth (a > b))
  | .le => .ok (.truth (a ≤ b))
  | .ge => .ok (.truth (a ≥ b))

def foldArith (op : BinOp) (a b : Single) (otherwise : Except FoldFault Value) :
    Except FoldFault Value :=
  match op with
  | .add => .ok (.float (a.add b))
  | .sub => .ok (.float (a.sub b))
  | .mul => .ok (.float (a.mul b))
  | .div => if b.isZero then .error .divisionByZero else .ok (.float (a.div b))
  | _ => otherwise

def foldFloatComparison (op : BinOp) (a b : Single) : Except FoldFault Value :=
  match op with
  | .eq => .ok (.truth (a.eq b))
  | .ne => .ok (.truth (!a.eq b))
  | .lt => .ok (.truth (a.lt b))
  | .gt => .ok (.truth (b.lt a))
  | .le => .ok (.truth (a.le b))
  | .ge => .ok (.truth (b.le a))
  | _ => .error .unsupported

def foldEquality (op : BinOp) (equal : Bool) : Except FoldFault Value :=
  match op with
  | .eq => .ok (.truth equal)
  | .ne => .ok (.truth (!equal))
  | _ => .error .unsupported

def foldBinary (op : BinOp) (lhs rhs : Value) : Except FoldFault Value :=
  match lhs, rhs with
  | .int a, .int b => foldInt op a b
  | .float a, .float b => foldArith op a b (foldFloatComparison op a b)
  | .int a, .float b => foldArith op (.ofInt a.toInt) b (.error .unsupported)
  | .float a, .int b => foldArith op a (.ofInt b.toInt) (.error .unsupported)
  | .string a, .string b =>
    if op = .add then .ok (.string (a ++ b)) else foldEquality op (a == b)
  | .object a, .object b => foldEquality op (a == b)
  | .vector a b c, .vector x y z =>
    if op = .add then .ok (.vector (a.add x) (b.add y) (c.add z))
    else if op = .sub then .ok (.vector (a.sub x) (b.sub y) (c.sub z))
    else foldEquality op (a.eq x && b.eq y && c.eq z)
  | .vector a b c, .float k =>
    if op = .mul then .ok (.vector (a.mul k) (b.mul k) (c.mul k))
    else if op = .div then
      if k.isZero then .error .divisionByZero
      else .ok (.vector (a.div k) (b.div k) (c.div k))
    else .error .unsupported
  | .float k, .vector a b c =>
    if op = .mul then .ok (.vector (k.mul a) (k.mul b) (k.mul c)) else .error .unsupported
  | _, _ => .error .unsupported

def foldUnary (op : UnOp) (value : Value) : Except FoldFault Value :=
  match op, value with
  | .neg, .int a => .ok (.int (-a))
  | .neg, .float a => .ok (.float a.neg)
  | .not, .int a => .ok (.truth (a == 0))
  | .bitNot, .int a => .ok (.int (~~~a))
  | _, _ => .error .unsupported

end Nwscript
