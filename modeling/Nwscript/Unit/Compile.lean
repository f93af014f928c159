import Nwscript.Check.Program
import Nwscript.Code.Program
import Nwscript.Include.Expand
import Nwscript.Object.Link
import Nwscript.Unit.State

/-! # Compiling units

The stages of a compilation one after the other. A unit with errors stops before code is
generated, and a unit whose check does not come to its end has no output at all. -/

namespace Nwscript

def release : String := "0.1.0"

structure Compiler where
  engine : EngineTable
  resolver : Resolver := {}
  warningsAsErrors : Bool := false

structure CompileOutput where
  name : String
  /-- Present when the unit is done. -/
  object : Option Object
  diagnostics : List Diagnostic
  state : UnitState
  /-- The error that ended the unit, which is also its last diagnostic. -/
  fatal : Option Fatal

def CompileOutput.isSuccess (o : CompileOutput) : Bool := o.object.isSome

inductive Stop where
  | fatal (e : Fatal)
  /-- The check is stuck. -/
  | stuck

/-- A step of a compilation. The unit is kept on a failure. -/
abbrev Compile (α : Type) := EStateM Stop CompileUnit α

namespace Compile

def report (ds : List Diagnostic) : Compile Unit := modify fun u => u.report ds

def enter (state : UnitState) : Compile Unit := do
  match (← get).transition state with
  | .ok u => set u
  | .error e => throw (.fatal e)

def orFail {ε α : Type} (fatal : ε → Fatal) : Except ε α → Compile α
  | .ok a => return a
  | .error e => throw (.fatal (fatal e))

def loadAll (c : Compiler) (unitDir : Option Provider) (source : String) :
    Compile (FileId × List Inclusion) := do
  let u ← get
  let (entry, files) :=
    u.sources.add { name := u.name, text := source, origin := .entry, parent := none }
  match loadIncludes c.resolver unitDir files entry with
  | .ok inclusions s =>
    set { u with sources := s.files }
    report s.diagnostics
    return (entry, inclusions)
  | .error e s =>
    set { u with sources := s.files }
    report s.diagnostics
    throw (.fatal e)

def allTokens (entry : FileId) (inclusions : List Inclusion) : Compile (List Token) := do
  match expand (← get).sources entry inclusions with
  | .ok expansion =>
    report (expansion.errors.map LexError.diagnostic)
    return expansion.tokens
  | .error fault => throw (.fatal fault.fatal)

def run (c : Compiler) (unitDir : Option Provider) (source : String) : Compile (Option Object) := do
  let (entry, inclusions) ← loadAll c unitDir source
  enter .lexing
  let tokens ← allTokens entry inclusions
  enter .parsing
  let parsed := parse c.engine.typeNames tokens
  report parsed.diagnostics
  enter .analyzing
  let checked := check c.engine parsed.program
  if checked.stuck then throw .stuck
  report checked.diagnostics
  if blocksGeneration (← get).diagnostics c.warningsAsErrors then
    enter .failed
    return none
  enter .generating
  let code ← orFail GenFault.fatal (generate c.engine parsed.program checked.analysis)
  enter .emitting
  let object ← orFail LinkFault.fatal (link code)
  enter .done
  return some object

end Compile

namespace Compiler

def newUnit (c : Compiler) (name : String) : CompileUnit :=
  { name := normalizeName name, tableVersion := c.engine.version }

def output (u : CompileUnit) (object : Option Object) (fatal : Option Fatal) : CompileOutput :=
  { name := u.name, object, diagnostics := u.diagnostics, state := u.state, fatal }

def failed (u : CompileUnit) (e : Fatal) : CompileOutput := output (u.fail e) none (some e)

/-- Compile a source; includes are looked up in the unit's directory first if it has one. -/
def compileUnit (c : Compiler) (name source : String) (unitDir : Option Provider) :
    Option CompileOutput :=
  match Compile.run c unitDir source (c.newUnit name) with
  | .ok object u => some (output u object none)
  | .error (.fatal e) u => some (failed u e)
  | .error .stuck _ => none

def compile (c : Compiler) (name source : String) : Option CompileOutput :=
  c.compileUnit name source none

end Compiler
end Nwscript
