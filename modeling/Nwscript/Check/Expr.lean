import Nwscript.Check.State

/-! # Checking expressions

The type of every expression is found from the types of its parts and recorded, and so is the value
of a constant one. An expression with an error has no type; the expressions around it stay quiet. -/

namespace Nwscript

/-- Arithmetic that integers and floats share. -/
def BinOp.isArithmetic : BinOp → Bool
  | add | sub | mul | div => true
  | _ => false

def BinOp.isEquality : BinOp → Bool
  | eq | ne => true
  | _ => false

def BinOp.isOrder : BinOp → Bool
  | lt | gt | le | ge => true
  | _ => false

def BinOp.isIntegral : BinOp → Bool
  | mod | shl | shr | ushr | bitAnd | bitOr | bitXor | logAnd | logOr => true
  | _ => false

def BinOp.divides : BinOp → Bool
  | div | mod => true
  | _ => false

/-- The type of the result of an operator, if it applies to the operands. -/
def binaryType? (op : BinOp) (lhs rhs : Ty) : Option Ty :=
  if op.isEquality then
    if lhs = rhs && lhs.isStorable then some .int else none
  else
    match lhs, rhs with
    | .int, .int => some .int
    | .float, .float =>
      if op.isArithmetic then some .float else if op.isOrder then some .int else none
    | .int, .float | .float, .int => if op.isArithmetic then some .float else none
    | .string, .string => if op = .add then some .string else none
    | .vector, .vector => if op = .add || op = .sub then some .vector else none
    | .vector, .float => if op = .mul || op = .div then some .vector else none
    | .float, .vector => if op = .mul then some .vector else none
    | _, _ => none

def unaryApplies (op : UnOp) (type : Ty) : Bool :=
  match op with
  | .neg => type = .int || type = .float
  | .not | .bitNot => type = .int

def Expr.root : Expr → Expr
  | .field _ base _ => base.root
  | e => e

def Expr.isIdent : Expr → Bool
  | .ident _ _ => true
  | _ => false

def Expr.isCall : Expr → Bool
  | .call _ _ _ => true
  | _ => false

/-- The component of a vector at an offset. There are three. -/
def vectorComponent? (x y z : Single) (offset : Int) : Option Single :=
  match offset.tdiv cellSize with
  | .ofNat index => [x, y, z][index]?
  | .negSucc _ => none

structure CallTarget where
  callee : Callee
  ret : Ty
  /-- The types of the parameters, and whether they have defaults. -/
  params : List (Ty × Bool)

namespace CallTarget

def required (t : CallTarget) : Nat := (t.params.takeWhile fun p => !p.2).length

def ofUser (id : FuncId) (f : FuncInfo) : CallTarget :=
  { callee := .user id, ret := f.ret, params := f.params.map fun p => (p.type, p.default.isSome) }

def ofEngine (f : EngineFunction) : CallTarget :=
  { callee := .engine f.ordinal, ret := f.ret,
    params := f.params.map fun p => (p.type, p.default.isSome) }

end CallTarget

namespace Check

def fold (e : Expr) (value : Value) : Check Unit :=
  let keep : Check Unit := record fun a => { a with consts := a.consts.insert e.id value }
  match value with
  | .string bytes =>
    if maxStringLength < bytes.length then report e.pos (.stringTooLong bytes.length) else keep
  | _ => keep

def dividesByZero (op : BinOp) (divisor : Expr) : Check Bool := do
  if !op.divides then return false
  match ← constOf divisor with
  | some value =>
    if value.isZero then
      report divisor.pos .divisionByZero
      return true
    else return false
  | none => return false

def foldOperands (e : Expr) (op : BinOp) (lhs rhs : Expr) : Check Unit := do
  match ← constOf lhs, ← constOf rhs with
  | some a, some b =>
    match foldBinary op a b with
    | .ok value => fold e value
    | .error _ => return
  | _, _ => return

def checkIdent (engine : EngineTable) (e : Expr) (name : String) : Check (Option Ty) := do
  match ← lookup name with
  | some var =>
    record fun a => { a with refs := a.refs.insert e.id var }
    match (← analysis).vars[var]? with
    | some info =>
      match info.value with
      | some value => fold e value
      | none => pure ()
      return some info.type
    | none => return none
  | none =>
    match engine.constant? name with
    | some value =>
      fold e value
      return some value.type
    | none => fail e.pos (.undefinedSymbol name)

def checkBinary (e : Expr) (op : BinOp) (lhs rhs : Expr) (a b : Ty) : Check (Option Ty) := do
  match binaryType? op a b with
  | none => fail e.pos (.binaryOperands op a b)
  | some type =>
    if ← dividesByZero op rhs then return some type
    foldOperands e op lhs rhs
    return some type

def checkUnary (e : Expr) (op : UnOp) (operand : Expr) (type : Ty) : Check (Option Ty) := do
  if !unaryApplies op type then fail e.pos (.unaryOperand type)
  else
    match ← constOf operand with
    | some a =>
      match foldUnary op a with
      | .ok value => fold e value
      | .error _ => pure ()
    | none => pure ()
    return some type

def isWritable (root : Expr) : Check Bool := do
  let a ← analysis
  match a.refs.get? root.id with
  | some var =>
    match a.vars[var]? with
    | some info => return !info.isConst
    | none => return false
  | none => return false

def checkAssign (e : Expr) (op : Option BinOp) (value : Expr) (target actual : Ty) :
    Check (Option Ty) := do
  match op with
  | none =>
    if target = actual then return some target
    else fail value.pos (.assignmentType actual target)
  | some op =>
    if binaryType? op target actual = some target then
      let _ ← dividesByZero op value
      return some target
    else fail e.pos (.compoundOperands op target actual)

def checkStep (target : Expr) (type : Ty) : Check (Option Ty) := do
  if !target.isIdent then fail target.pos .stepTarget
  else if type ≠ .int then fail target.pos (.stepType type)
  else return some .int

def checkField (e base : Expr) (type : Ty) (name : String) : Check (Option Ty) := do
  match (← analysis).structs.field? type name with
  | some (offset, fieldType) =>
    match ← constOf base with
    | some (.vector x y z) =>
      match vectorComponent? x y z offset with
      | some component => fold e (.float component)
      | none => stop
    | _ => pure ()
    return some fieldType
  | none =>
    match type with
    | .vector | .struct _ => fail e.pos (.unknownField type name)
    | _ => fail e.pos (.noFields type)

def checkConditional (e cond yes no : Expr) (condType yesType noType : Ty) :
    Check (Option Ty) := do
  if condType ≠ .int then fail cond.pos (.conditionType condType)
  else if yesType ≠ noType then fail e.pos (.branchTypes yesType noType)
  else
    match ← constOf cond with
    | some (.int n) =>
      match ← constOf (if n != 0 then yes else no) with
      | some value => fold e value
      | none => pure ()
    | _ => pure ()
    return some yesType

def callTarget (engine : EngineTable) (e : Expr) (name : String) : Check (Option CallTarget) := do
  let a ← analysis
  match a.function? name with
  | some id =>
    match a.functions[id]? with
    | some f =>
      if !f.defined then report e.pos (.missingBody name)
      return some (.ofUser id f)
    | none => return none
  | none =>
    match engine.function? name with
    | some f => return some (.ofEngine f)
    | none => fail e.pos (.undefinedFunction name)

/-- The arguments of a call against the parameters. An action argument is a call, of any type. -/
def checkArgTypes (name : String) : List (Expr × Option Ty) → List (Ty × Bool) → Check Unit
  | (arg, type) :: args, (param, _) :: params => do
    if param = .action then
      if !arg.isCall then report arg.pos .actionArgument
    else
      match type with
      | some type => if type ≠ param then report arg.pos (.argumentType type name param)
      | none => pure ()
    checkArgTypes name args params
  | _, _ => return

def checkCall (engine : EngineTable) (e : Expr) (name : String) (args : List (Expr × Option Ty)) :
    Check (Option Ty) := do
  match ← callTarget engine e name with
  | none => return none
  | some target =>
    let given := args.length
    let total := target.params.length
    if given < target.required || total < given then
      report e.pos (.arity name target.required total given)
    checkArgTypes name args target.params
    record fun a => { a with calls := a.calls.insert e.id target.callee }
    return some target.ret

def typed (e : Expr) (check : Check (Option Ty)) : Check (Option Ty) := do
  match ← check with
  | some type =>
    record fun a => { a with types := a.types.insert e.id type }
    return some type
  | none => return none

/-- A target that was checked: it must be a variable that may be written, or a field of one. -/
def checkTarget (target : Expr) (check : Check (Option Ty)) : Check (Option Ty) := do
  if !target.root.isIdent then fail target.pos .notAssignable
  else
    match ← check with
    | none => return none
    | some type =>
      if ← isWritable target.root then return some type
      else fail target.pos .constantAssigned

mutual

def checkExpr (engine : EngineTable) (e : Expr) : Check (Option Ty) :=
  typed e <|
    match e with
    | .literal node value => do
      fold (.literal node value) value
      return some value.type
    | .ident node name => checkIdent engine (.ident node name) name
    | .binary node op lhs rhs => do
      let a ← checkExpr engine lhs
      let b ← checkExpr engine rhs
      match a, b with
      | some a, some b => checkBinary (.binary node op lhs rhs) op lhs rhs a b
      | _, _ => return none
    | .unary node op operand => do
      match ← checkExpr engine operand with
      | some type => checkUnary (.unary node op operand) op operand type
      | none => return none
    | .step _ _ _ target => do
      match ← checkTarget target (checkExpr engine target) with
      | some type => checkStep target type
      | none => return none
    | .call node name args => do
      let types ← checkExprs engine args
      checkCall engine (.call node name args) name (args.zip types)
    | .assign node op target value => do
      let a ← checkTarget target (checkExpr engine target)
      let b ← checkExpr engine value
      match a, b with
      | some a, some b => checkAssign (.assign node op target value) op value a b
      | _, _ => return none
    | .field node base name => do
      match ← checkExpr engine base with
      | some type => checkField (.field node base name) base type name
      | none => return none
    | .conditional node cond yes no => do
      let a ← checkExpr engine cond
      let b ← checkExpr engine yes
      let c ← checkExpr engine no
      match a, b, c with
      | some a, some b, some c =>
        checkConditional (.conditional node cond yes no) cond yes no a b c
      | _, _, _ => return none

def checkExprs (engine : EngineTable) : List Expr → Check (List (Option Ty))
  | [] => return []
  | e :: es => do
    let type ← checkExpr engine e
    return type :: (← checkExprs engine es)

end

end Check
end Nwscript
