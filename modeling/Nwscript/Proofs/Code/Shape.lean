import Nwscript.Proofs.Code.Layout

/-! # The shape of generated code

Code generation as relations between trees and lines of code, without its state: each rule gives the
lines of one construct from those of its parts, with the depth of the stack before and behind them.
The labels of the functions and the depths at which labels are reached are given from outside. -/

namespace Nwscript

structure CodeEnv where
  ctx : GenContext
  func : FuncId → Option Label
  depth : Label → Option Int

/-! ## Lines -/

namespace Gen

def loadOp (c : GenContext) (slot : Slot) (depth offset size : Int) : Op :=
  .instr (.copyTop (baseOf slot) (.ofInt (distance c depth offset slot)) (.ofInt size))

def storeOp (c : GenContext) (slot : Slot) (depth offset size : Int) : Op :=
  .instr (.copyDown (baseOf slot) (.ofInt (distance c depth offset slot)) (.ofInt size))

def stepOp (c : GenContext) (s : Step) (slot : Slot) (depth : Int) : Op :=
  .instr (.step s (baseOf slot) (.ofInt (distance c depth 0 slot)))

def dupOp : Op := .instr (.copyTop .stack (.ofInt (-cellSize)) (.ofInt cellSize))

def saveOp (c : GenContext) (f : Frame) (depth : Int) : Op :=
  .instr (.storeState (Int32.ofInt c.globals.size).toUInt32
    (Int32.ofInt (f.paramsSize + depth)).toUInt32)

def constantOps : Value → List Op
  | .int n => [Op.instr (.const (.int n))]
  | .float x => [Op.instr (.const (.float x))]
  | .string bytes => [Op.instr (.const (.string bytes))]
  | .object n => [Op.instr (.const (.object n))]
  | .vector x y z =>
    [Op.instr (.const (.float x)), .instr (.const (.float y)), .instr (.const (.float z))]

def placeOf (a : Analysis) : Expr → Option Part
  | .ident node _ => do
    let var ← a.refs.get? node.id
    let info ← a.vars[var]?
    return ⟨var, 0, info.type⟩
  | .field _ base name => do
    let part ← placeOf a base
    let (offset, type) ← a.structs.field? part.type name
    return ⟨part.var, part.offset + offset, type⟩
  | _ => none

structure Addresses (c : GenContext) (locals : List (VarId × Int)) (depth : Int) (var : VarId)
    (offset : Int) (slot : Slot) : Prop where
  found : slotOf c locals var = some slot
  fits : Fits (distance c depth offset slot)

def paramsSize (a : Analysis) (f : FuncInfo) : Int := (f.params.map fun p => a.sizeOf p.type).sum

def resultCells (a : Analysis) (f : FuncInfo) : List UInt8 :=
  if f.ret = .void then [] else cellsIn a.structs.defs f.ret

/-- The size of the first arguments for parameters of an engine function, actions apart. -/
def suppliedSize (a : Analysis) (argc : Nat) (params : List EngineParam) : Int :=
  ((params.take argc).map fun p => if p.type = .action then 0 else a.sizeOf p.type).sum

end Gen

/-! ## Expressions -/

/-- What expressions are compiled from: one of them, or the arguments of a call. -/
inductive ExprPiece where
  | expr (e : Expr)
  | userArgs (params : List FuncParam) (args : List Expr)
  | engineArgs (params : List EngineParam) (args : List Expr)

open Gen in
/-- The lines of an expression, where the local variables have their bottoms, and the depths before
and behind them. -/
inductive ExprCode (Γ : CodeEnv) (f : Frame) (locals : List (VarId × Int)) :
    ExprPiece → Int → List Op → Int → Prop where
  | constant {e v d} :
      Γ.ctx.analysis.valueOf e = some v →
      ExprCode Γ f locals (.expr e) d (constantOps v) (d + Γ.ctx.analysis.sizeOf v.type)
  | loadVar {node name var info slot d} :
      Γ.ctx.analysis.refs.get? node.id = some var → Γ.ctx.analysis.vars[var]? = some info →
      Addresses Γ.ctx locals d var 0 slot →
      ExprCode Γ f locals (.expr (.ident node name)) d
        [loadOp Γ.ctx slot d 0 (Γ.ctx.analysis.sizeOf info.type)]
        (d + Γ.ctx.analysis.sizeOf info.type)
  | shortCircuit {node op lhs rhs d left right onward join} :
      op = .logAnd ∨ op = .logOr →
      ExprCode Γ f locals (.expr lhs) d left (d + cellSize) →
      ExprCode Γ f locals (.expr rhs) (d + cellSize) right (d + cellSize + cellSize) →
      Γ.depth onward = some (d + cellSize) → Γ.depth join = some (d + cellSize + cellSize) →
      ExprCode Γ f locals (.expr (.binary node op lhs rhs)) d
        (left ++ [dupOp] ++ [Op.jump (onwardJump op) onward] ++ [dupOp] ++ [Op.jump .always join] ++
          [Op.mark onward] ++ right ++ [Op.mark join] ++
          [Op.instr (.binary (Opcode.ofBinOp op) PairByte.intInt)])
        (d + cellSize)
  | binary {node op lhs rhs d d₁ d₂ d' left right leftType rightType i} :
      op ≠ .logAnd → op ≠ .logOr →
      ExprCode Γ f locals (.expr lhs) d left d₁ → ExprCode Γ f locals (.expr rhs) d₁ right d₂ →
      Γ.ctx.analysis.typeOf lhs = some leftType → Γ.ctx.analysis.typeOf rhs = some rightType →
      binaryInstr? Γ.ctx.analysis op leftType rightType = some i → i.effect? = some (d' - d₂) →
      ExprCode Γ f locals (.expr (.binary node op lhs rhs)) d (left ++ right ++ [Op.instr i]) d'
  | unary {node op operand d d' value type} :
      ExprCode Γ f locals (.expr operand) d value d' → Γ.ctx.analysis.typeOf operand = some type →
      ExprCode Γ f locals (.expr (.unary node op operand)) d
        (value ++ [Op.instr (unaryInstr op type)]) d'
  | stepFirst {node s target var slot d} :
      Γ.ctx.analysis.refs.get? target.id = some var → Addresses Γ.ctx locals d var 0 slot →
      ExprCode Γ f locals (.expr (.step node s .stepFirst target)) d
        ([stepOp Γ.ctx s slot d] ++ [loadOp Γ.ctx slot d 0 cellSize]) (d + cellSize)
  | valueFirst {node s target var slot d} :
      Γ.ctx.analysis.refs.get? target.id = some var → Addresses Γ.ctx locals d var 0 slot →
      Addresses Γ.ctx locals (d + cellSize) var 0 slot →
      ExprCode Γ f locals (.expr (.step node s .valueFirst target)) d
        ([loadOp Γ.ctx slot d 0 cellSize] ++ [stepOp Γ.ctx s slot (d + cellSize)]) (d + cellSize)
  | userCall {node name args func info label d d₁ pushed} :
      Γ.ctx.analysis.calls.get? node.id = some (.user func) →
      Γ.ctx.analysis.functions[func]? = some info → Γ.func func = some label →
      ExprCode Γ f locals (.userArgs info.params args)
        (d + cellSize * (resultCells Γ.ctx.analysis info).length) pushed d₁ →
      ExprCode Γ f locals (.expr (.call node name args)) d
        (reserveOps (resultCells Γ.ctx.analysis info) ++ pushed ++ [Op.jump .call label])
        (d₁ - paramsSize Γ.ctx.analysis info)
  | engineCall {node name args info d d₁ pushed} :
      Γ.ctx.analysis.calls.get? node.id = some (.engine info.ordinal) →
      Γ.ctx.engine.functionAt? info.ordinal = some info →
      ExprCode Γ f locals (.engineArgs info.params args) d pushed d₁ →
      ExprCode Γ f locals (.expr (.call node name args)) d
        (pushed ++ [Op.instr (.action info.ordinal args.length.toUInt8)])
        (d₁ + (Γ.ctx.analysis.sizeOf info.ret -
          suppliedSize Γ.ctx.analysis args.length info.params))
  | assign {node target value part slot d d₁ new} :
      placeOf Γ.ctx.analysis target = some part → ExprCode Γ f locals (.expr value) d new d₁ →
      Addresses Γ.ctx locals d₁ part.var part.offset slot →
      ExprCode Γ f locals (.expr (.assign node none target value)) d
        (new ++ [storeOp Γ.ctx slot d₁ part.offset (Γ.ctx.analysis.sizeOf part.type)]) d₁
  | compound {node op target value part slot d d₁ d' right type i} :
      placeOf Γ.ctx.analysis target = some part → Addresses Γ.ctx locals d part.var part.offset slot →
      ExprCode Γ f locals (.expr value) (d + Γ.ctx.analysis.sizeOf part.type) right d₁ →
      Γ.ctx.analysis.typeOf value = some type →
      binaryInstr? Γ.ctx.analysis op part.type type = some i → i.effect? = some (d' - d₁) →
      Addresses Γ.ctx locals d' part.var part.offset slot →
      ExprCode Γ f locals (.expr (.assign node (some op) target value)) d
        ([loadOp Γ.ctx slot d part.offset (Γ.ctx.analysis.sizeOf part.type)] ++ right ++
          [Op.instr i] ++
          [storeOp Γ.ctx slot d' part.offset (Γ.ctx.analysis.sizeOf part.type)]) d'
  | fieldOfVariable {node base name part slot d} :
      placeOf Γ.ctx.analysis (.field node base name) = some part →
      Addresses Γ.ctx locals d part.var part.offset slot →
      ExprCode Γ f locals (.expr (.field node base name)) d
        [loadOp Γ.ctx slot d part.offset (Γ.ctx.analysis.sizeOf part.type)]
        (d + Γ.ctx.analysis.sizeOf part.type)
  | fieldOfValue {node base name baseType type offset d d₁ value} :
      Γ.ctx.analysis.typeOf base = some baseType →
      Γ.ctx.analysis.structs.field? baseType name = some (offset, type) →
      ExprCode Γ f locals (.expr base) d value d₁ →
      ExprCode Γ f locals (.expr (.field node base name)) d
        (value ++ [Op.instr (.destruct (.ofInt (Γ.ctx.analysis.sizeOf baseType)) (.ofInt offset)
          (.ofInt (Γ.ctx.analysis.sizeOf type)))])
        (d₁ + (Γ.ctx.analysis.sizeOf type - Γ.ctx.analysis.sizeOf baseType))
  | conditional {node cond yes no d d' test first second other join} :
      ExprCode Γ f locals (.expr cond) d test (d + cellSize) →
      ExprCode Γ f locals (.expr yes) d first d' → ExprCode Γ f locals (.expr no) d second d' →
      Γ.depth other = some d → Γ.depth join = some d' →
      ExprCode Γ f locals (.expr (.conditional node cond yes no)) d
        (test ++ [Op.jump .ifZero other] ++ first ++ [Op.jump .always join] ++ [Op.mark other] ++
          second ++
          [Op.mark join]) d'
  | noArgs {d} : ExprCode Γ f locals (.userArgs [] []) d [] d
  | default {p params v d d₁ later} :
      p.default = some v → v.type = p.type →
      ExprCode Γ f locals (.userArgs params []) d later d₁ →
      ExprCode Γ f locals (.userArgs (p :: params) []) d (later ++ constantOps v)
        (d₁ + Γ.ctx.analysis.sizeOf p.type)
  | arg {p params arg args d d₁ later value} :
      ExprCode Γ f locals (.userArgs params args) d later d₁ →
      ExprCode Γ f locals (.expr arg) d₁ value (d₁ + Γ.ctx.analysis.sizeOf p.type) →
      ExprCode Γ f locals (.userArgs (p :: params) (arg :: args)) d (later ++ value)
        (d₁ + Γ.ctx.analysis.sizeOf p.type)
  | noEngineArgs {params d} :
      ExprCode Γ f locals (.engineArgs params []) d [] d
  | engineArg {p params arg args d d₁ later value} :
      p.type ≠ .action → ExprCode Γ f locals (.engineArgs params args) d later d₁ →
      ExprCode Γ f locals (.expr arg) d₁ value (d₁ + Γ.ctx.analysis.sizeOf p.type) →
      ExprCode Γ f locals (.engineArgs (p :: params) (arg :: args)) d (later ++ value)
        (d₁ + Γ.ctx.analysis.sizeOf p.type)
  /-- An action stands behind a jump and ends at the depth it starts with. -/
  | action {p params arg args d d₁ d₂ later body after} :
      p.type = .action → ExprCode Γ f locals (.engineArgs params args) d later d₁ →
      Fits (f.paramsSize + d₁) → ExprCode Γ f locals (.expr arg) d₁ body d₂ → PopFits d₂ d₁ →
      Γ.depth after = some d₁ →
      ExprCode Γ f locals (.engineArgs (p :: params) (arg :: args)) d
        (later ++ ([saveOp Γ.ctx f d₁] ++ [Op.jump .always after] ++ body ++
          popOps d₂ d₁ ++ [Op.instr .ret] ++ [Op.mark after])) d₁

/-! ## Statements -/

structure StackMap where
  locals : List (VarId × Int)
  depth : Int

inductive StmtPiece where
  | stmt (s : Stmt)
  /-- A statement whose variables are popped. -/
  | nested (s : Stmt)
  | stmts (ss : List Stmt)
  | vars (ds : List Declarator)
  | switchBody (labels : List (Option Label)) (ss : List Stmt)

namespace Gen

def DiscardCode (Γ : CodeEnv) (f : Frame) (m : StackMap) (e : Expr) (ops : List Op) : Prop :=
  ∃ value d, ExprCode Γ f m.locals (.expr e) m.depth value d ∧ PopFits d m.depth ∧
    ops = value ++ popOps d m.depth

def OptionalCode (Γ : CodeEnv) (f : Frame) (m : StackMap) : Option Expr → List Op → Prop
  | some e, ops => DiscardCode Γ f m e ops
  | none, ops => ops = []

def ExitCode (Γ : CodeEnv) (f : Frame) (m : StackMap) (leave : Label) :
    Option Expr → List Op → Prop
  | some e, ops => ∃ test, ExprCode Γ f m.locals (.expr e) m.depth test (m.depth + cellSize) ∧
      ops = test ++ [Op.jump .ifZero leave]
  | none, ops => ops = []

def InitCode (Γ : CodeEnv) (f : Frame) (locals : List (VarId × Int)) (d size : Int) :
    Option Expr → List Op → Prop
  | some e, ops => ∃ value, ExprCode Γ f locals (.expr e) d value (d + size) ∧
      ops = value ++ [Op.instr (.copyDown .stack (.ofInt (-2 * size)) (.ofInt size))] ++
        [Op.instr (.moveSp (.ofInt (-size)))]
  | none, ops => ops = []

/-- The tests of a switch whose value lies on top of the stack, with the labels of its statements and
that of the default. -/
inductive DispatchCode (Γ : CodeEnv) (pair : UInt8) (d : Int) :
    List Stmt → List Op → List (Option Label) → Option Label → Prop where
  | nil : DispatchCode Γ pair d [] [] [] none
  | caseLabel {pos e v label rest ops labels other} :
      Γ.ctx.analysis.valueOf e = some v → Γ.ctx.analysis.sizeOf v.type = cellSize →
      Γ.depth label = some d →
      DispatchCode Γ pair d rest ops labels other →
      DispatchCode Γ pair d (.caseLabel pos e :: rest)
        ([dupOp] ++ constantOps v ++ [Op.instr (.binary Opcode.equal pair)] ++
          [Op.jump .ifNonzero label] ++ ops) (some label :: labels) other
  | defaultLabel {pos label rest ops labels other} :
      Γ.depth label = some d → DispatchCode Γ pair d rest ops labels other →
      DispatchCode Γ pair d (.defaultLabel pos :: rest) ops (some label :: labels)
        (other.or (some label))
  | stmt {s rest ops labels other} :
      s.isLabel = false → DispatchCode Γ pair d rest ops labels other →
      DispatchCode Γ pair d (s :: rest) ops (none :: labels) other

def switchPair (type : Ty) : UInt8 :=
  if type = .string then PairByte.stringString else PairByte.intInt

end Gen

open Gen in
/-- The lines of a statement, with what the stack looks like before and behind them. -/
inductive StmtCode (Γ : CodeEnv) (f : Frame) :
    List JumpTarget → StmtPiece → StackMap → List Op → StackMap → Prop where
  | block {targets pos body m m' ops} :
      StmtCode Γ f targets (.stmts body) m ops m' → PopFits m'.depth m.depth →
      StmtCode Γ f targets (.stmt (.block pos body)) m (ops ++ popOps m'.depth m.depth)
        ⟨m'.locals, m.depth⟩
  | nested {targets s m m' ops} :
      StmtCode Γ f targets (.stmt s) m ops m' → PopFits m'.depth m.depth →
      StmtCode Γ f targets (.nested s) m (ops ++ popOps m'.depth m.depth) ⟨m'.locals, m.depth⟩
  | var {targets pos decl m m' ops} :
      StmtCode Γ f targets (.vars decl.vars) m ops m' →
      StmtCode Γ f targets (.stmt (.var pos decl)) m ops m'
  | expr {targets pos e m ops} :
      DiscardCode Γ f m e ops → StmtCode Γ f targets (.stmt (.expr pos e)) m ops m
  | ifThen {targets pos cond yes m m' test first other} :
      ExprCode Γ f m.locals (.expr cond) m.depth test (m.depth + cellSize) →
      StmtCode Γ f targets (.nested yes) m first m' → Γ.depth other = some m.depth →
      StmtCode Γ f targets (.stmt (.ifThen pos cond yes)) m
        (test ++ [Op.jump .ifZero other] ++ first ++ [Op.mark other]) m'
  | ifElse {targets pos cond yes no m m₁ m' test first second other join} :
      ExprCode Γ f m.locals (.expr cond) m.depth test (m.depth + cellSize) →
      StmtCode Γ f targets (.nested yes) m first m₁ →
      StmtCode Γ f targets (.nested no) m₁ second m' →
      Γ.depth other = some m.depth → Γ.depth join = some m.depth →
      StmtCode Γ f targets (.stmt (.ifElse pos cond yes no)) m
        (test ++ [Op.jump .ifZero other] ++ first ++ [Op.jump .always join] ++ [Op.mark other] ++
          second ++
          [Op.mark join]) m'
  | whileLoop {targets pos cond body m m' test ops top leave} :
      ExitCode Γ f m leave (some cond) test →
      StmtCode Γ f (⟨leave, some top, m.depth⟩ :: targets) (.nested body) m ops m' →
      Γ.depth top = some m.depth → Γ.depth leave = some m.depth →
      StmtCode Γ f targets (.stmt (.whileLoop pos cond body)) m
        ([Op.mark top] ++ test ++ ops ++ [Op.jump .always top] ++ [Op.mark leave]) m'
  | doWhile {targets pos cond body m m' test ops top next leave} :
      StmtCode Γ f (⟨leave, some next, m.depth⟩ :: targets) (.nested body) m ops m' →
      ExprCode Γ f m'.locals (.expr cond) m.depth test (m.depth + cellSize) →
      Γ.depth top = some m.depth → Γ.depth next = some m.depth → Γ.depth leave = some m.depth →
      StmtCode Γ f targets (.stmt (.doWhile pos body cond)) m
        ([Op.mark top] ++ ops ++ [Op.mark next] ++ test ++ [Op.jump .ifNonzero top] ++
          [Op.mark leave]) m'
  | forLoop {targets pos init cond step body m m' before test ops onward top next leave} :
      OptionalCode Γ f m init before → ExitCode Γ f m leave cond test →
      StmtCode Γ f (⟨leave, some next, m.depth⟩ :: targets) (.nested body) m ops m' →
      OptionalCode Γ f m' step onward →
      Γ.depth top = some m.depth → Γ.depth next = some m.depth → Γ.depth leave = some m.depth →
      StmtCode Γ f targets (.stmt (.forLoop pos init cond step body)) m
        (before ++ [Op.mark top] ++ test ++ ops ++ [Op.mark next] ++ onward ++
          [Op.jump .always top] ++
          [Op.mark leave]) m'
  | switch {targets pos value body m m' type push tests ops labels other leave} :
      Γ.ctx.analysis.typeOf value = some type →
      ExprCode Γ f m.locals (.expr value) m.depth push (m.depth + cellSize) →
      DispatchCode Γ (switchPair type) (m.depth + cellSize) body tests labels other →
      Γ.depth (other.getD leave) = some (m.depth + cellSize) →
      StmtCode Γ f (⟨leave, none, m.depth + cellSize⟩ :: targets) (.switchBody labels body)
        ⟨m.locals, m.depth + cellSize⟩ ops m' →
      PopFits m'.depth (m.depth + cellSize) → Γ.depth leave = some (m.depth + cellSize) →
      StmtCode Γ f targets (.stmt (.switch pos value body)) m
        (push ++ tests ++ [Op.jump .always (other.getD leave)] ++ ops ++
          popOps m'.depth (m.depth + cellSize) ++ [Op.mark leave] ++
          [Op.instr (.moveSp (.ofInt (-cellSize)))]) ⟨m'.locals, m.depth⟩
  | returnValue {targets pos e m bottom size ops} :
      f.result = some (bottom, size) →
      ExprCode Γ f m.locals (.expr e) m.depth ops (m.depth + size) →
      Fits (bottom - (m.depth + size)) → PopFits (m.depth + size) 0 → Γ.depth f.exit = some 0 →
      StmtCode Γ f targets (.stmt (.ret pos (some e))) m
        (ops ++ [Op.instr (.copyDown .stack (.ofInt (bottom - (m.depth + size))) (.ofInt size))] ++
          popOps (m.depth + size) 0 ++ [Op.jump .always f.exit]) m
  | returnPlain {targets pos value m} :
      f.result = none → PopFits m.depth 0 → Γ.depth f.exit = some 0 →
      StmtCode Γ f targets (.stmt (.ret pos value)) m (popOps m.depth 0 ++
        [Op.jump .always f.exit]) m
  | breakOut {target targets pos m} :
      PopFits m.depth target.depth → Γ.depth target.leave = some target.depth →
      StmtCode Γ f (target :: targets) (.stmt (.breakOut pos)) m
        (popOps m.depth target.depth ++ [Op.jump .always target.leave]) m
  | continueLoop {targets label d pos m} :
      continueTarget? targets = some (label, d) → PopFits m.depth d → Γ.depth label = some d →
      StmtCode Γ f targets (.stmt (.continueLoop pos)) m
        (popOps m.depth d ++ [Op.jump .always label]) m
  | empty {targets pos m} :
      StmtCode Γ f targets (.stmt (.empty pos)) m [] m
  | noStmts {targets m} : StmtCode Γ f targets (.stmts []) m [] m
  | stmts {targets s ss m m₁ m' first rest} :
      StmtCode Γ f targets (.stmt s) m first m₁ → StmtCode Γ f targets (.stmts ss) m₁ rest m' →
      StmtCode Γ f targets (.stmts (s :: ss)) m (first ++ rest) m'
  | noVars {targets m} : StmtCode Γ f targets (.vars []) m [] m
  | vars {targets d ds var info m m' cells init rest} :
      Γ.ctx.analysis.decls.get? d.node.id = some var → Γ.ctx.analysis.vars[var]? = some info →
      cells = cellsIn Γ.ctx.analysis.structs.defs info.type →
      cellSize * cells.length = Γ.ctx.analysis.sizeOf info.type →
      InitCode Γ f m.locals (m.depth + Γ.ctx.analysis.sizeOf info.type)
        (Γ.ctx.analysis.sizeOf info.type) d.init init →
      StmtCode Γ f targets (.vars ds)
        ⟨(var, m.depth) :: m.locals, m.depth + Γ.ctx.analysis.sizeOf info.type⟩ rest m' →
      StmtCode Γ f targets (.vars (d :: ds)) m (reserveOps cells ++ init ++ rest) m'
  | noCases {targets labels m} :
      StmtCode Γ f targets (.switchBody labels []) m [] m
  | label {targets label labels s ss m m' rest} :
      s.isLabel = true → Γ.depth label = some m.depth →
      StmtCode Γ f targets (.switchBody labels ss) m rest m' →
      StmtCode Γ f targets (.switchBody (some label :: labels) (s :: ss)) m
        ([Op.mark label] ++ rest) m'
  | case {targets labels s ss m m₁ m' first rest} :
      s.isLabel = false → StmtCode Γ f targets (.stmt s) m first m₁ →
      StmtCode Γ f targets (.switchBody labels ss) m₁ rest m' →
      StmtCode Γ f targets (.switchBody (none :: labels) (s :: ss)) m (first ++ rest) m'

/-! ## Marks -/

def marks (ops : List Op) : List Label :=
  ops.filterMap fun
    | .mark label => some label
    | _ => none

end Nwscript
