import Nwscript.Code.State

/-! # Code of expressions

The code of an expression leaves its value on top of the stack. Constant expressions are pushed
directly. -/

namespace Nwscript
namespace Gen

/-! ## Operators -/

def comparesBytes (op : BinOp) : Ty → Ty → Bool
  | .vector, .vector => op = .eq || op = .ne
  | .struct _, .struct _ => op = .eq || op = .ne
  | _, _ => false

def binaryInstr? (a : Analysis) (op : BinOp) (lhs rhs : Ty) : Option Instr :=
  if comparesBytes op lhs rhs then some (.compare (Opcode.ofBinOp op) (.ofInt (a.sizeOf lhs)))
  else (PairByte.ofTypes? lhs rhs).map (.binary (Opcode.ofBinOp op))

def binaryOp (c : GenContext) (op : BinOp) (lhs rhs : Ty) : Gen (List Op) := do
  emit (← orFault (.noEncoding lhs op rhs) (binaryInstr? c.analysis op lhs rhs))

def unaryInstr (op : UnOp) (type : Ty) : Instr :=
  match op with
  | .neg => .neg (if type = .float then TypeByte.float else TypeByte.int)
  | .not => .not
  | .bitNot => .comp

def duplicate : Gen (List Op) := emit (.copyTop .stack (.ofInt (-cellSize)) (.ofInt cellSize))

def onwardJump (op : BinOp) : JumpKind := if op = .logAnd then .ifNonzero else .ifZero

/-- A logical operator that looks at its right operand only if it has to. A left operand that
decides is paired with itself, so that the result is 0 or 1. -/
def shortCircuit (op : BinOp) (lhs rhs : Gen (List Op)) : Gen (List Op) := do
  let onward ← newLabel
  let join ← newLabel
  let left ← lhs
  let depth ← depth
  let test ← duplicate
  let branch ← jump (onwardJump op) onward
  let again ← duplicate
  let skip ← jump .always join
  setDepth depth
  let here ← mark onward
  let right ← rhs
  let joined ← mark join
  let combine ← emit (.binary (Opcode.ofBinOp op) PairByte.intInt)
  return left ++ test ++ branch ++ again ++ skip ++ here ++ right ++ joined ++ combine

def choice (cond yes no : Gen (List Op)) : Gen (List Op) := do
  let other ← newLabel
  let join ← newLabel
  let test ← cond
  let branch ← jump .ifZero other
  let depth ← depth
  let first ← yes
  let skip ← jump .always join
  setDepth depth
  let here ← mark other
  let second ← no
  let joined ← mark join
  return test ++ branch ++ first ++ skip ++ here ++ second ++ joined

/-! ## Places -/

def varRef (c : GenContext) (e : Expr) : Gen VarId :=
  orFault (.identNotResolved e.id) (c.analysis.refs.get? e.id)

structure Part where
  var : VarId
  offset : Int
  type : Ty

/-- The part of a variable that an expression stands for, if it does for one. -/
def place (c : GenContext) : Expr → Gen (Option Part)
  | .ident node _ =>
    match c.analysis.refs.get? node.id with
    | some var => do return some ⟨var, 0, (← varInfo c var).type⟩
    | none => return none
  | .field _ base name => do
    match ← place c base with
    | some part =>
      let (offset, type) ← orFault (.noField part.type name)
        (c.analysis.structs.field? part.type name)
      return some ⟨part.var, part.offset + offset, type⟩
    | none => return none
  | _ => return none

def keepField (c : GenContext) (type : Ty) (name : String) (base : Gen (List Op)) :
    Gen (List Op) := do
  let (offset, fieldType) ← orFault (.noField type name) (c.analysis.structs.field? type name)
  let value ← base
  let keep ← emit (.destruct (.ofInt (c.analysis.sizeOf type)) (.ofInt offset)
    (.ofInt (c.analysis.sizeOf fieldType)))
  return value ++ keep

def stepAndLoad (c : GenContext) (s : Step) (order : StepOrder) (var : VarId) : Gen (List Op) := do
  match order with
  | .stepFirst =>
    let step ← stepVar c s var
    return step ++ (← load c var 0 cellSize)
  | .valueFirst =>
    let value ← load c var 0 cellSize
    return value ++ (← stepVar c s var)

/-! ## Calls -/

def defaults (name : String) (index : Nat) : List FuncParam → Gen (List Op)
  | [] => return []
  | p :: ps => do
    let later ← defaults name (index + 1) ps
    let value ← orFault (.missingArgument index name) p.default
    return later ++ (← constant value)

def reserveResult (c : GenContext) (f : FuncInfo) : Gen (List Op) :=
  if f.ret = .void then return [] else reserve c f.ret

def userCall (c : GenContext) (func : FuncId) (f : FuncInfo) (args : Gen (List Op)) :
    Gen (List Op) := do
  let result ← reserveResult c f
  let pushed ← args
  let size := f.params.foldr (fun p size => c.analysis.sizeOf p.type + size) 0
  let label ← funcLabel func
  return result ++ pushed ++ (← emitCall (.jump .call label) (-size))

def storedAction (c : GenContext) (f : Frame) (call : Gen (List Op)) : Gen (List Op) := do
  let after ← newLabel
  let depth ← depth
  let save ← emit (.storeState (Int32.ofInt c.globals.size).toUInt32
    (Int32.ofInt (← fit (f.paramsSize + depth))).toUInt32)
  let skip ← jump .always after
  let body ← call
  let pop ← popTo depth
  let ret ← emit .ret
  setDepth depth
  return save ++ skip ++ body ++ pop ++ ret ++ (← mark after)

/-- A call of a function of the engine, with the code of its arguments and their size. The engine
fills in defaults. -/
def engineCall (c : GenContext) (f : EngineFunction) (argc : Nat) (args : Gen (List Op × Int)) :
    Gen (List Op) := do
  let (pushed, size) ← args
  let call : Op := .instr (.action f.ordinal argc.toUInt8)
  return pushed ++ (← emitCall call (c.analysis.sizeOf f.ret - size))

/-! ## Expressions -/

mutual

def expr (c : GenContext) (f : Frame) (e : Expr) : Gen (List Op) :=
  match c.analysis.consts.get? e.id with
  | some value => constant value
  | none =>
    match e with
    | .literal _ value => constant value
    | .ident node name => do
      let var ← varRef c (.ident node name)
      load c var 0 (c.analysis.sizeOf (← varInfo c var).type)
    | .binary _ op lhs rhs =>
      if op = .logAnd || op = .logOr then shortCircuit op (expr c f lhs) (expr c f rhs)
      else do
        let left ← expr c f lhs
        let right ← expr c f rhs
        let a ← typeOf c lhs
        let b ← typeOf c rhs
        return left ++ right ++ (← binaryOp c op a b)
    | .unary _ op operand => do
      let value ← expr c f operand
      return value ++ (← emit (unaryInstr op (← typeOf c operand)))
    | .step _ s order target => do stepAndLoad c s order (← varRef c target)
    | .call node _ args => do
      match ← orFault (.callNotResolved node.id) (c.analysis.calls.get? node.id) with
      | .user func =>
        let info ← orFault (.noDefinition func) c.analysis.functions[func]?
        userCall c func info (userArgs c f info.name 0 info.params args)
      | .engine ordinal =>
        let info ← orFault (.noEngineFunction ordinal) (c.engine.functionAt? ordinal)
        engineCall c info args.length (engineArgs c f info.params args)
    | .assign _ op target value => do
      let part ← orFault .targetWithoutStorage (← place c target)
      let size := c.analysis.sizeOf part.type
      match op with
      | none =>
        let new ← expr c f value
        return new ++ (← store c part.var part.offset size)
      | some op =>
        let old ← load c part.var part.offset size
        let right ← expr c f value
        let result ← binaryOp c op part.type (← typeOf c value)
        return old ++ right ++ result ++ (← store c part.var part.offset size)
    | .field node base name => do
      match ← place c (.field node base name) with
      | some part => load c part.var part.offset (c.analysis.sizeOf part.type)
      | none => keepField c (← typeOf c base) name (expr c f base)
    | .conditional _ cond yes no => choice (expr c f cond) (expr c f yes) (expr c f no)

/-- The arguments of a function of the program, the last one first; omitted ones take their
defaults. -/
def userArgs (c : GenContext) (f : Frame) (name : String) (index : Nat) :
    List FuncParam → List Expr → Gen (List Op)
  | params, [] => defaults name index params
  | [], _ :: _ => return []
  | _ :: params, arg :: args => do
    let later ← userArgs c f name (index + 1) params args
    return later ++ (← expr c f arg)

/-- The arguments of a function of the engine, the last one first, and the size of those that are
pushed. -/
def engineArgs (c : GenContext) (f : Frame) :
    List EngineParam → List Expr → Gen (List Op × Int)
  | _, [] => return ([], 0)
  | params, arg :: args => do
    let (later, size) ← engineArgs c f params.tail args
    let isAction : Bool := match params.head? with
      | some p => p.type = .action
      | none => false
    if isAction then return (later ++ (← storedAction c f (expr c f arg)), size)
    else
      let value ← expr c f arg
      return (later ++ value, size + c.analysis.sizeOf (← typeOf c arg))

end

def discarded (c : GenContext) (f : Frame) (e : Expr) : Gen (List Op) := do
  let value ← expr c f e
  let size := c.analysis.sizeOf (← typeOf c e)
  if 0 < size then return value ++ (← moveSp (-size)) else return value

end Gen
end Nwscript
