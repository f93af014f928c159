import Mathlib
import Nwscript.Check.Program

/-! # The meaning of expressions

An interpreter for expressions on integer variables. Operands are evaluated from left to right, `&&`
and `||` look at their right operand only if they have to, and a compound assignment reads its target
before it evaluates its right side. The arguments of a call are evaluated the last one first. -/

namespace Nwscript
namespace Meaning

inductive Outcome (α : Type) where
  | done (a : α)
  /-- An operator has no result. -/
  | fault (reason : FoldFault)
  /-- A loop or a chain of calls took more rounds than are allowed. -/
  | timeout

namespace Outcome

def bind {α β : Type} : Outcome α → (α → Outcome β) → Outcome β
  | done a, k => k a
  | fault reason, _ => fault reason
  | timeout, _ => timeout

instance : Monad Outcome where
  pure := done
  bind := bind

end Outcome

abbrev Store := VarId → Int32

def Store.set (σ : Store) (var : VarId) (n : Int32) : Store :=
  fun other => if other = var then n else σ other

abbrev Eval (α : Type) := StateT Store Outcome α

abbrev Calls := FuncId → List Value → Outcome (Option Value)

namespace Eval

def fault {α : Type} (reason : FoldFault) : Eval α := fun _ => .fault reason

def call (calls : Calls) (func : FuncId) (args : List Value) : Eval (Option Value) :=
  fun σ => (calls func args).bind fun v => .done (v, σ)

def load (a : Analysis) (var : VarId) : Eval (Option Value) := fun σ =>
  match a.vars[var]? with
  | some info => .done (if info.kind = .global then info.value else some (.int (σ var)), σ)
  | none => .fault .unsupported

def store : Option VarId → Option Value → Eval Unit
  | some var, some (.int n) => fun σ => .done ((), σ.set var n)
  | _, _ => fault .unsupported

def ofFold : Except FoldFault Value → Eval (Option Value)
  | .ok v => pure (some v)
  | .error reason => fault reason

def binary (op : BinOp) : Option Value → Option Value → Eval (Option Value)
  | some x, some y => ofFold (foldBinary op x y)
  | _, _ => fault .unsupported

def unary (op : UnOp) : Option Value → Eval (Option Value)
  | some x => ofFold (foldUnary op x)
  | none => fault .unsupported

/-- Go on with the right operand unless the left one has decided. -/
def unlessDecided (rest : Eval (Option Value)) : Option Value → Eval (Option Value)
  | some v => return some v
  | none => rest

def test : Option Value → Eval Bool
  | some (.int n) => pure (n != 0)
  | _ => fault .unsupported

end Eval

/-! ## Expressions -/

/-- The result of a logical operator that its left operand decides. -/
def shortcut? : BinOp → Option Value → Option Value
  | .logAnd, some (.int n) => if n = 0 then some (.int 0) else none
  | .logOr, some (.int n) => if n = 0 then none else some (.int 1)
  | _, _ => none

def stepValue (s : Step) : Option Value → Option Value
  | some (.int n) => some (.int (match s with
    | .increment => n + 1
    | .decrement => n - 1))
  | _ => none

def component? (a : Analysis) (name : String) : Option Value → Option Value
  | some (.vector x y z) =>
    (a.structs.field? .vector name).bind fun f => (vectorComponent? x y z f.1).map .float
  | _ => none

def targetVar? (a : Analysis) : Expr → Option VarId
  | .ident node _ => a.refs.get? node.id
  | _ => none

def defaultArgs : List FuncParam → Eval (List Value)
  | [] => return []
  | p :: ps => do
    let later ← defaultArgs ps
    match p.default with
    | some v => return v :: later
    | none => Eval.fault .unsupported

section Expr

variable (engine : EngineTable) (a : Analysis) (calls : Calls)

mutual

/-- The value of an expression; a call of a function without a result has none. -/
def eval : Expr → Eval (Option Value)
  | .literal _ value => return some value
  | .ident node name =>
    match a.refs.get? node.id with
    | some var => Eval.load a var
    | none => return engine.constant? name
  | .binary _ op lhs rhs => do
    let x ← eval lhs
    Eval.unlessDecided (do Eval.binary op x (← eval rhs)) (shortcut? op x)
  | .unary _ op operand => do Eval.unary op (← eval operand)
  | .step _ s order target => do
    let old ← eval target
    let new := stepValue s old
    Eval.store (targetVar? a target) new
    match order with
    | .stepFirst => return new
    | .valueFirst => return old
  | .call node _ args =>
    match a.calls.get? node.id with
    | some (.user func) =>
      match a.functions[func]? with
      | some info => do Eval.call calls func (← evalArgs info.params args)
      | none => Eval.fault .unsupported
    | _ => Eval.fault .unsupported
  | .assign _ op target value =>
    match op with
    | none => do
      let new ← eval value
      Eval.store (targetVar? a target) new
      return new
    | some op => do
      let old ← eval target
      let new ← Eval.binary op old (← eval value)
      Eval.store (targetVar? a target) new
      return new
  | .field _ base name => do return component? a name (← eval base)
  | .conditional _ cond yes no => do
    if ← Eval.test (← eval cond) then eval yes else eval no

def evalArgs : List FuncParam → List Expr → Eval (List Value)
  | params, [] => defaultArgs params
  | [], _ :: _ => return []
  | _ :: params, arg :: args => do
    let later ← evalArgs params args
    match ← eval arg with
    | some v => return v :: later
    | none => Eval.fault .unsupported

end

end Expr

end Meaning
end Nwscript
