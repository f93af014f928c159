import Nwscript.Syntax.Basic
import Nwscript.Value.Fold

/-! # Constant expressions

The value of an expression that is made of literals and named constants. -/

namespace Nwscript

inductive EvalFault where
  | notConst
  | divisionByZero
  | typeError
  deriving DecidableEq, Repr

namespace EvalFault

def ofFold : FoldFault → EvalFault
  | .divisionByZero => divisionByZero
  | .unsupported => typeError

def name : EvalFault → String
  | notConst => "NotConst"
  | divisionByZero => "DivisionByZero"
  | typeError => "TypeError"

def lift (r : Except FoldFault Value) : Except EvalFault Value := r.mapError ofFold

end EvalFault

/-- The value of a constant expression, with the values of the names. Of a conditional only the
chosen branch is looked at. -/
def evalConst (lookup : String → Option Value) : Expr → Except EvalFault Value
  | .literal _ value => .ok value
  | .ident _ name =>
    match lookup name with
    | some value => .ok value
    | none => .error .notConst
  | .binary _ op lhs rhs => do
    let a ← evalConst lookup lhs
    let b ← evalConst lookup rhs
    EvalFault.lift (foldBinary op a b)
  | .unary _ op operand => do
    let a ← evalConst lookup operand
    EvalFault.lift (foldUnary op a)
  | .conditional _ cond yes no => do
    match ← evalConst lookup cond with
    | .int n => if n = 0 then evalConst lookup no else evalConst lookup yes
    | _ => .error .typeError
  | _ => .error .notConst

end Nwscript
