import Nwscript.Check.Expr
import Nwscript.Check.Flow

/-! # Checking statements

Blocks, branches and loop bodies open scopes of their own. A check of a statement leaves the scopes
as they were. -/

namespace Nwscript

structure BodyContext where
  /-- The declared result. -/
  ret : Ty
  /-- The enclosing loops, which continue goes on with. -/
  loops : Nat := 0
  /-- The enclosing loops and switches, which break leaves. -/
  breakables : Nat := 0

namespace BodyContext

def inLoop (c : BodyContext) : BodyContext :=
  { c with loops := c.loops + 1, breakables := c.breakables + 1 }

def inSwitch (c : BodyContext) : BodyContext := { c with breakables := c.breakables + 1 }

end BodyContext

structure SwitchLabels where
  /-- The type of the switch value, if it is known. -/
  type : Option Ty
  values : List Value := []
  hasDefault : Bool := false

structure SequenceState where
  reachable : Bool := true
  /-- The unreachable statements here have been reported. -/
  reported : Bool := false
  /-- Declarations that a later label would skip. -/
  skippable : List (String × Pos) := []
  labels : Option SwitchLabels := none

namespace Check

/-! ## Declarations -/

def variableType (engine : EngineTable) (decl : VarDecl) : Check (Option Ty) := do
  match ← resolveType engine decl.pos decl.type with
  | some type =>
    if type.isStorable then return some type else fail decl.pos (.variableType type)
  | none => return none

def initialValue (isConst : Bool) (name : String) (init : Expr) (actual : Option Ty) :
    Check (Option Value) := do
  if isConst then
    match ← constOf init with
    | some value => return some value
    | none =>
      if actual.isSome then report init.pos (.initializerNotConstant name)
      return none
  else return none

/-- Check the initializer of a variable and give its value if the variable is a constant. -/
def checkInitializer (engine : EngineTable) (isConst : Bool) (type : Option Ty) (var : Declarator) :
    Check (Option Value) := do
  match var.init with
  | some init =>
    let actual ← checkExpr engine init
    match type, actual with
    | some type, some actual =>
      if type ≠ actual then report init.pos (.initializerType type var.name actual)
    | _, _ => pure ()
    initialValue isConst var.name init actual
  | none =>
    if isConst then report var.node.pos (.initializerMissing var.name)
    return none

def declare (kind : VarKind) (name : String) (var : VarId) (pos : Pos) : Check Unit :=
  match kind with
  | .global => declareGlobal name var pos
  | .param | .local => declareLocal name var pos (.localRedefined name)

/-- One variable of a declaration. A type that is not known counts as int, so that uses of the
variable are not reported too. -/
def checkDeclarator (engine : EngineTable) (kind : VarKind) (isConst : Bool) (type : Option Ty)
    (var : Declarator) : Check Unit := do
  let value ← checkInitializer engine isConst type var
  let pos := var.node.pos
  let id ← newVar { name := var.name, type := type.getD .int, kind, isConst, value, pos }
  recordDecl var.node.id id
  declare kind var.name id pos

def checkVarDecl (engine : EngineTable) (kind : VarKind) (decl : VarDecl) : Check Unit := do
  let type ← variableType engine decl
  decl.vars.forM (checkDeclarator engine kind decl.isConst type)

/-! ## Parts of statements -/

def checkOptional (engine : EngineTable) : Option Expr → Check Unit
  | some e => do
    let _ ← checkExpr engine e
  | none => return

def checkCondition (engine : EngineTable) (cond : Expr) : Check Unit := do
  match ← checkExpr engine cond with
  | some type => if type ≠ .int then report cond.pos (.conditionType type)
  | none => return

def checkSwitchValue (engine : EngineTable) (value : Expr) : Check (Option Ty) := do
  match ← checkExpr engine value with
  | some .int => return some .int
  | some .string => return some .string
  | some type => fail value.pos (.switchType type)
  | none => return none

/-- A label with a value: a constant of the type of the switch that no earlier label has. -/
def checkCase (engine : EngineTable) (label : Expr) (labels : SwitchLabels) :
    Check SwitchLabels := do
  match ← checkExpr engine label with
  | none => return labels
  | some type =>
    match ← constOf label with
    | none =>
      report label.pos .caseNotConstant
      return labels
    | some value =>
      let expected := labels.type.getD type
      if expected ≠ type then
        report label.pos (.caseType type expected)
        return labels
      if labels.values.any fun v => v.same value then
        report label.pos .duplicateCase
        return labels
      return { labels with values := value :: labels.values }

def checkDefault (pos : Pos) (labels : SwitchLabels) : Check SwitchLabels := do
  if labels.hasDefault then report pos .duplicateDefault
  return { labels with hasDefault := true }

def reportSkipped (skippable : List (String × Pos)) : Check Unit :=
  skippable.forM fun (name, pos) => report pos (.declarationSkipped name)

def checkReturn (engine : EngineTable) (ret : Ty) (pos : Pos) : Option Expr → Check Unit
  | some value => do
    let type ← checkExpr engine value
    if ret = .void then report value.pos .valueFromVoid
    else
      match type with
      | some type => if type ≠ ret then report value.pos (.returnType type ret)
      | none => return
  | none => if ret = .void then return else report pos (.returnWithoutValue ret)

def warnUnreachable (state : SequenceState) (s : Stmt) : Check Bool := do
  let isEmpty := match s with
    | .empty _ => true
    | _ => false
  if !state.reachable && !state.reported && !isEmpty then
    report s.pos .unreachable
    return true
  return state.reported

def skippableNames : Stmt → List (String × Pos)
  | .var _ decl => decl.vars.map fun var => (var.name, var.node.pos)
  | _ => []

/-! ## Statements -/

mutual

def checkStmt (engine : EngineTable) (ctx : BodyContext) : Stmt → Check Unit
  | .block _ body => inScope (checkStmts engine ctx {} body)
  | .var _ decl => checkVarDecl engine .local decl
  | .expr _ e => checkOptional engine (some e)
  | .ifThen _ cond yes => do
    checkCondition engine cond
    inScope (checkStmt engine ctx yes)
  | .ifElse _ cond yes no => do
    checkCondition engine cond
    inScope (checkStmt engine ctx yes)
    inScope (checkStmt engine ctx no)
  | .whileLoop _ cond body => do
    checkCondition engine cond
    inScope (checkStmt engine ctx.inLoop body)
  | .doWhile _ body cond => do
    inScope (checkStmt engine ctx.inLoop body)
    checkCondition engine cond
  | .forLoop _ init cond next body => do
    checkOptional engine init
    match cond with
    | some cond => checkCondition engine cond
    | none => pure ()
    checkOptional engine next
    inScope (checkStmt engine ctx.inLoop body)
  | .switch _ value body => do
    let type ← checkSwitchValue engine value
    inScope (checkStmts engine ctx.inSwitch { labels := some { type } } body)
  | .caseLabel pos _ => report pos .misplacedLabel
  | .defaultLabel pos => report pos .misplacedLabel
  | .ret pos value => checkReturn engine ctx.ret pos value
  | .breakOut pos => if ctx.breakables = 0 then report pos .misplacedBreak else return
  | .continueLoop pos => if ctx.loops = 0 then report pos .misplacedContinue else return
  | .empty _ => return

/-- Check the statements of a block in order. Labels may only stand in the body of a switch. -/
def checkStmts (engine : EngineTable) (ctx : BodyContext) (state : SequenceState) :
    List Stmt → Check Unit
  | [] => return
  | s :: rest => do
    match s, state.labels with
    | .caseLabel _ label, some labels =>
      let labels ← checkCase engine label labels
      reportSkipped state.skippable
      checkStmts engine ctx { labels := some labels } rest
    | .defaultLabel pos, some labels =>
      let labels ← checkDefault pos labels
      reportSkipped state.skippable
      checkStmts engine ctx { labels := some labels } rest
    | _, labels =>
      let reported ← warnUnreachable state s
      checkStmt engine ctx s
      let reachable := state.reachable && s.goesOn (← analysis).consts
      let skippable := state.skippable ++ if labels.isSome then skippableNames s else []
      checkStmts engine ctx { reachable, reported, skippable, labels } rest

end

end Check
end Nwscript
