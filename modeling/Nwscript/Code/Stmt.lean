import Nwscript.Code.Expr

/-! # Code of statements

The code of a statement leaves the stack at the depth it found, declarations apart, which leave
their variables. -/

namespace Nwscript
namespace Gen

/-! ## Parts of statements -/

def nested (body : Gen (List Op)) : Gen (List Op) := do
  let depth ← depth
  let ops ← body
  return ops ++ (← popTo depth)

/-- Copy the value of an initializer into the cells of `size` bytes on top of the stack. -/
def initVar (c : GenContext) (f : Frame) (size : Int) : Option Expr → Gen (List Op)
  | some init => do
    let value ← expr c f init
    let copy ← emit (.copyDown .stack (.ofInt (-2 * size)) (.ofInt size))
    return value ++ copy ++ (← moveSp (-size))
  | none => return []

def declareVar (c : GenContext) (f : Frame) (decl : Declarator) : Gen (List Op) := do
  let var ← declVar c decl.node.id
  let info ← varInfo c var
  let size := c.analysis.sizeOf info.type
  let bottom ← depth
  let cells ← reserve c info.type
  let init ← initVar c f size decl.init
  modify fun s => { s with locals := (var, bottom) :: s.locals }
  return cells ++ init

/-- Pop down to the depth of a target and jump. What follows the jump is generated at the depth it
would have had. -/
def jumpOut (label : Label) (target : Int) : Gen (List Op) := do
  let saved ← depth
  let pop ← popTo target
  let jump ← jump .always label
  setDepth saved
  return pop ++ jump

def continueTarget? (targets : List JumpTarget) : Option (Label × Int) :=
  targets.findSome? fun t => t.again.map fun label => (label, t.depth)

def storeResult (c : GenContext) (f : Frame) (value : Option Expr) : Gen (List Op) :=
  match value, f.result with
  | some e, some (bottom, size) => do
    let ops ← expr c f e
    let offset ← fit (bottom - (← depth))
    return ops ++ (← emit (.copyDown .stack (.ofInt offset) (.ofInt size)))
  | _, _ => return []

def returnValue (c : GenContext) (f : Frame) (value : Option Expr) : Gen (List Op) := do
  let saved ← depth
  let result ← storeResult c f value
  let pop ← popTo 0
  let jump ← jump .always f.exit
  setDepth saved
  return result ++ pop ++ jump

def optional (c : GenContext) (f : Frame) : Option Expr → Gen (List Op)
  | some e => discarded c f e
  | none => return []

def exitUnless (c : GenContext) (f : Frame) (leave : Label) : Option Expr → Gen (List Op)
  | some e => do
    let test ← expr c f e
    return test ++ (← jump .ifZero leave)
  | none => return []

def loopBody (targets : List JumpTarget) (leave again : Label)
    (body : List JumpTarget → Gen (List Op)) : Gen (List Op) := do
  let target : JumpTarget := ⟨leave, some again, ← depth⟩
  nested (body (target :: targets))

/-! ## Switches -/

/-- Compare the value of a switch with the labels in turn. Gives the label of each statement that is
one, and the label of the default. -/
def dispatch (c : GenContext) (pair : UInt8) :
    List Stmt → Gen (List Op × List (Option Label) × Option Label)
  | [] => return ([], [], none)
  | .caseLabel _ e :: rest => do
    let label ← newLabel
    let value ← orFault .caseNotFolded (c.analysis.consts.get? e.id)
    let copy ← duplicate
    let push ← constant value
    let compare ← emit (.binary Opcode.equal pair)
    let branch ← jump .ifNonzero label
    let (ops, labels, other) ← dispatch c pair rest
    return (copy ++ push ++ compare ++ branch ++ ops, some label :: labels, other)
  | .defaultLabel _ :: rest => do
    let label ← newLabel
    let (ops, labels, other) ← dispatch c pair rest
    return (ops, some label :: labels, other.or (some label))
  | _ :: rest => do
    let (ops, labels, other) ← dispatch c pair rest
    return (ops, none :: labels, other)

/-- A switch. Its value stays on the stack while the body runs. -/
def switch (c : GenContext) (f : Frame) (value : Expr) (stmts : List Stmt)
    (body : JumpTarget → List (Option Label) → Gen (List Op)) : Gen (List Op) := do
  let pair := if (← typeOf c value) = .string then PairByte.stringString else PairByte.intInt
  let push ← expr c f value
  let depth ← depth
  let leave ← newLabel
  let (tests, labels, other) ← dispatch c pair stmts
  let skip ← jump .always (other.getD leave)
  let ops ← body ⟨leave, none, depth⟩ labels
  let pop ← popTo depth
  let here ← mark leave
  return push ++ tests ++ skip ++ ops ++ pop ++ here ++ (← moveSp (-cellSize))

def markOr (label : Option Label) (code : Gen (List Op)) : Gen (List Op) :=
  match label with
  | some label => mark label
  | none => code

/-! ## Statements -/

mutual

def stmt (c : GenContext) (f : Frame) (targets : List JumpTarget) : Stmt → Gen (List Op)
  | .block _ body => nested (stmts c f targets body)
  | .var _ decl => sequence (decl.vars.map (declareVar c f))
  | .expr _ e => discarded c f e
  | .ifThen _ cond yes => do
    let other ← newLabel
    let test ← expr c f cond
    let branch ← jump .ifZero other
    let first ← nested (stmt c f targets yes)
    return test ++ branch ++ first ++ (← mark other)
  | .ifElse _ cond yes no => do
    let other ← newLabel
    let test ← expr c f cond
    let branch ← jump .ifZero other
    let first ← nested (stmt c f targets yes)
    let join ← newLabel
    let skip ← jump .always join
    let here ← mark other
    let second ← nested (stmt c f targets no)
    return test ++ branch ++ first ++ skip ++ here ++ second ++ (← mark join)
  | .whileLoop _ cond body => do
    let top ← newLabel
    let leave ← newLabel
    let start ← mark top
    let test ← exitUnless c f leave (some cond)
    let ops ← loopBody targets leave top fun targets => stmt c f targets body
    let back ← jump .always top
    return start ++ test ++ ops ++ back ++ (← mark leave)
  | .doWhile _ body cond => do
    let top ← newLabel
    let next ← newLabel
    let leave ← newLabel
    let start ← mark top
    let ops ← loopBody targets leave next fun targets => stmt c f targets body
    let here ← mark next
    let test ← expr c f cond
    let back ← jump .ifNonzero top
    return start ++ ops ++ here ++ test ++ back ++ (← mark leave)
  | .forLoop _ init cond step body => do
    let before ← optional c f init
    let top ← newLabel
    let next ← newLabel
    let leave ← newLabel
    let start ← mark top
    let test ← exitUnless c f leave cond
    let ops ← loopBody targets leave next fun targets => stmt c f targets body
    let here ← mark next
    let onward ← optional c f step
    let back ← jump .always top
    return before ++ start ++ test ++ ops ++ here ++ onward ++ back ++ (← mark leave)
  | .switch _ value body =>
    switch c f value body fun target labels => switchBody c f (target :: targets) labels body
  | .caseLabel _ _ => throw .misplacedLabel
  | .defaultLabel _ => throw .misplacedLabel
  | .ret _ value => returnValue c f value
  | .breakOut _ =>
    match targets with
    | target :: _ => jumpOut target.leave target.depth
    | [] => throw .misplacedBreak
  | .continueLoop _ =>
    match continueTarget? targets with
    | some (label, depth) => jumpOut label depth
    | none => throw .misplacedContinue
  | .empty _ => return []

def stmts (c : GenContext) (f : Frame) (targets : List JumpTarget) : List Stmt → Gen (List Op)
  | [] => return []
  | s :: rest => do
    let first ← stmt c f targets s
    return first ++ (← stmts c f targets rest)

def switchBody (c : GenContext) (f : Frame) (targets : List JumpTarget)
    (labels : List (Option Label)) : List Stmt → Gen (List Op)
  | [] => return []
  | s :: rest => do
    let first ← markOr labels.head?.join (stmt c f targets s)
    return first ++ (← switchBody c f targets labels.tail rest)

end

def block (c : GenContext) (f : Frame) (body : List Stmt) : Gen (List Op) := nested (stmts c f [] body)

end Gen
end Nwscript
