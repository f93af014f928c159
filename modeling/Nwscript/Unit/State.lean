import Nwscript.Fatal
import Nwscript.Source.Files

/-! # Units

A unit moves forward through its states, or fails. It collects the diagnostics of every stage. -/

namespace Nwscript

inductive UnitState where
  | resolvingIncludes
  | lexing
  | parsing
  | analyzing
  | generating
  | emitting
  | done
  | failed
  deriving DecidableEq, Repr

namespace UnitState

def all : List UnitState :=
  [resolvingIncludes, lexing, parsing, analyzing, generating, emitting, done, failed]

def next? : UnitState → Option UnitState
  | resolvingIncludes => some lexing
  | lexing => some parsing
  | parsing => some analyzing
  | analyzing => some generating
  | generating => some emitting
  | emitting => some done
  | done | failed => none

def stage : UnitState → Stage
  | resolvingIncludes => .including
  | lexing => .lex
  | parsing => .parse
  | analyzing => .analyze
  | generating => .generate
  | emitting | done | failed => .emit

def isTerminal : UnitState → Bool
  | done | failed => true
  | _ => false

def text : UnitState → String
  | resolvingIncludes => "RESOLVING_INCLUDES"
  | lexing => "LEXING"
  | parsing => "PARSING"
  | analyzing => "ANALYZING"
  | generating => "GENERATING"
  | emitting => "EMITTING"
  | done => "DONE"
  | failed => "FAILED"

end UnitState

structure CompileUnit where
  name : String
  /-- The label of the engine's version. -/
  tableVersion : String
  state : UnitState := .resolvingIncludes
  sources : SourceFiles := {}
  diagnostics : List Diagnostic := []
  deriving Repr

namespace CompileUnit

def mayMove (u : CompileUnit) (next : UnitState) : Bool :=
  match next with
  | .failed => !u.state.isTerminal
  | _ => u.state.next? == some next

def transition (u : CompileUnit) (next : UnitState) : Except Fatal CompileUnit :=
  if u.mayMove next then .ok { u with state := next }
  else
    .error (.internal ("unit '" ++ u.name ++ "' cannot move from " ++ u.state.text ++ " to " ++
      next.text))

def chainOf (u : CompileUnit) (d : Diagnostic) : List String :=
  match d.pos with
  | some pos => u.sources.chain pos.file
  | none => [u.name]

def report (u : CompileUnit) (ds : List Diagnostic) : CompileUnit :=
  { u with diagnostics := u.diagnostics ++ ds.map fun d => { d with chain := u.chainOf d } }

def fail (u : CompileUnit) (e : Fatal) : CompileUnit :=
  let d : Diagnostic :=
    { stage := u.state.stage, severity := .error, code := e.code, message := e.message,
      chain := e.chainIn u.name }
  { u with
    diagnostics := u.diagnostics ++ [d]
    state := if u.state.isTerminal then u.state else .failed }

end CompileUnit
end Nwscript
