import Nwscript.Check.Analysis

/-! # Reachable ends

Whether control can reach the end of a statement, for the check that every path returns. A condition
counts as true when it is a constant other than zero; every other condition may go either way. -/

namespace Nwscript

mutual

/-- Whether a statement holds a break that leaves the enclosing statement. Loops and switches own
the breaks in them. -/
def Stmt.breaks : Stmt → Bool
  | .breakOut _ => true
  | .block _ body => anyBreaks body
  | .ifThen _ _ yes => yes.breaks
  | .ifElse _ _ yes no => yes.breaks || no.breaks
  | _ => false

def anyBreaks : List Stmt → Bool
  | [] => false
  | s :: ss => s.breaks || anyBreaks ss

end

mutual

/-- Whether a statement holds a continue of the enclosing loop. Switches pass it on. -/
def Stmt.continues : Stmt → Bool
  | .continueLoop _ => true
  | .block _ body => anyContinues body
  | .switch _ _ body => anyContinues body
  | .ifThen _ _ yes => yes.continues
  | .ifElse _ _ yes no => yes.continues || no.continues
  | _ => false

def anyContinues : List Stmt → Bool
  | [] => false
  | s :: ss => s.continues || anyContinues ss

end

def Stmt.isLabel : Stmt → Bool
  | .caseLabel _ _ | .defaultLabel _ => true
  | _ => false

def Stmt.isDefault : Stmt → Bool
  | .defaultLabel _ => true
  | _ => false

def isAlwaysTrue (consts : NodeTable Value) (cond : Expr) : Bool :=
  match consts.get? cond.id with
  | some (.int n) => n != 0
  | _ => false

def isAlwaysTrue? (consts : NodeTable Value) : Option Expr → Bool
  | none => true
  | some cond => isAlwaysTrue consts cond

mutual

def fallsThrough (consts : NodeTable Value) : Stmt → Bool
  | .ret _ _ => false
  | .block _ body => blockFallsThrough consts true body
  | .ifElse _ _ yes no => fallsThrough consts yes || fallsThrough consts no
  | .whileLoop _ cond body => !isAlwaysTrue consts cond || body.breaks
  | .forLoop _ _ cond _ body => !isAlwaysTrue? consts cond || body.breaks
  | .doWhile _ body cond =>
    if isAlwaysTrue consts cond then body.breaks
    else fallsThrough consts body || body.breaks || body.continues
  | .switch _ _ body =>
    !body.any Stmt.isDefault || anyBreaks body || blockFallsThrough consts true body
  | _ => true

/-- Whether control can reach the end of a sequence whose beginning it can reach or not. A label
makes what follows it reachable. -/
def blockFallsThrough (consts : NodeTable Value) (reachable : Bool) : List Stmt → Bool
  | [] => reachable
  | s :: ss =>
    blockFallsThrough consts (s.isLabel || (reachable && fallsThrough consts s)) ss

end

/-- Whether control can go on behind a statement of a sequence. -/
def Stmt.goesOn (consts : NodeTable Value) : Stmt → Bool
  | .breakOut _ | .continueLoop _ => false
  | s => fallsThrough consts s

end Nwscript
