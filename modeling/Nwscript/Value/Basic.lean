import Nwscript.Single.Arith
import Nwscript.Text.Bytes
import Nwscript.Types.Basic

/-! # Values

The values of literals and of constant expressions. -/

namespace Nwscript

inductive Value where
  | int (n : Int32)
  | float (x : Single)
  | string (bytes : Bytes)
  | object (n : Int32)
  | vector (x y z : Single)
  deriving DecidableEq, Repr, Inhabited

namespace Value

def type : Value → Ty
  | int _ => .int
  | float _ => .float
  | string _ => .string
  | object _ => .object
  | vector _ _ _ => .vector

def isZero : Value → Bool
  | int n => n == 0
  | float x => x.isZero
  | _ => false

def truth (b : Bool) : Value := int (if b then 1 else 0)

/-- Equality as the language has it: zeros are equal, and what is not a number equals nothing. -/
def same : Value → Value → Bool
  | int a, int b => a == b
  | float a, float b => a.eq b
  | string a, string b => a == b
  | object a, object b => a == b
  | vector a b c, vector x y z => a.eq x && b.eq y && c.eq z
  | _, _ => false

def objectSelf : Value := object 0

def objectInvalid : Value := object 1

end Value
end Nwscript
