import Nwscript.Check.Analysis
import Nwscript.Check.Problem
import Nwscript.Engine.Table

/-! # The state of a check

A check writes the tables of a program, keeps the open scopes, and collects what it finds. -/

namespace Nwscript

structure CheckState where
  analysis : Analysis := {}
  scopes : ScopeStack := {}
  /-- The global variables declared so far. -/
  globals : Scope := []
  /-- The last finding first. -/
  findings : List Finding := []
  /-- A component was asked of a constant that has none. There is no way on; what is written
  behind that does not count. -/
  stuck : Bool := false
  deriving Repr, Inhabited

abbrev Check (α : Type) := StateM CheckState α

namespace Check

def report (pos : Pos) (problem : Problem) : Check Unit :=
  modify fun s => { s with findings := ⟨problem, pos⟩ :: s.findings }

def fail {α : Type} (pos : Pos) (problem : Problem) : Check (Option α) := do
  report pos problem
  return none

/-- Come to where there is no way on. -/
def stop : Check Unit := modify fun s => { s with stuck := true }

def record (f : Analysis → Analysis) : Check Unit :=
  modify fun s => { s with analysis := f s.analysis }

def analysis : Check Analysis := do return (← get).analysis

def constOf (e : Expr) : Check (Option Value) := do return (← analysis).consts.get? e.id

def newVar (info : VarInfo) : Check VarId := do
  let id := (← analysis).vars.size
  record fun a => { a with vars := a.vars.push info }
  return id

def recordDecl (node : NodeId) (var : VarId) : Check Unit :=
  record fun a => { a with decls := a.decls.insert node var }

def inScope (check : Check Unit) : Check Unit := do
  modify fun s => { s with scopes := s.scopes.push }
  check
  modify fun s => { s with scopes := s.scopes.pop }

def declareLocal (name : String) (var : VarId) (pos : Pos) (problem : Problem) : Check Unit := do
  let s ← get
  match s.scopes.inner? name with
  | some _ => report pos problem
  | none => set { s with scopes := s.scopes.declare name var }

def declareGlobal (name : String) (var : VarId) (pos : Pos) : Check Unit := do
  let s ← get
  match s.globals.lookup name with
  | some _ => report pos (.globalRedefined name)
  | none =>
    set { s with
      globals := (name, var) :: s.globals
      analysis := { s.analysis with globals := s.analysis.globals ++ [var] } }

/-- The variable that a name stands for: the innermost local one, else the global one. -/
def lookup (name : String) : Check (Option VarId) := do
  let s ← get
  return (s.scopes.lookup? name).or (s.globals.lookup name)

def resolveType (engine : EngineTable) (pos : Pos) : TypeSpec → Check (Option Ty)
  | .void => return some .void
  | .int => return some .int
  | .float => return some .float
  | .string => return some .string
  | .object => return some .object
  | .vector => return some .vector
  | .action => return some .action
  | .struct name => do
    if (← analysis).structs.contains name then return some (.struct name)
    else fail pos (.unknownStruct name)
  | .engine name =>
    match engine.type? name with
    | some type => return some type
    | none => fail pos (.unknownEngineType name engine.version)

end Check
end Nwscript
