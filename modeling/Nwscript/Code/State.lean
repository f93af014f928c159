import Nwscript.Check.Analysis
import Nwscript.Code.Op
import Nwscript.Engine.Table

/-! # The state of code generation

The depth of the stack is known at every line. Variables are addressed from the top of the stack,
global variables from the base pointer, and a label is reached at one depth only. Depths and offsets
are signed 32-bit numbers; one that leaves their range is a fault. -/

namespace Nwscript

/-! ## Faults -/

/-- A check of code generation that failed. For a program without errors only an overflow can
arise. -/
inductive GenFault where
  | noDefinition (func : FuncId)
  | notAFunction (index : Nat)
  | labelDepths (label : Label) (expected actual : Int)
  | exitDepth (routine : String) (actual expected : Int)
  | underflow (bytes : Int)
  | declNotAnalyzed (node : NodeId)
  | noType (node : NodeId)
  | noStorage (name : String)
  | unknownVariable (var : VarId)
  | unknownStruct (name : String)
  | notReservable (type : Ty)
  | misplacedLabel
  | misplacedBreak
  | misplacedContinue
  | caseNotFolded
  | noEncoding (lhs : Ty) (op : BinOp) (rhs : Ty)
  | identNotResolved (node : NodeId)
  | noField (type : Ty) (field : String)
  | targetWithoutStorage
  | callNotResolved (node : NodeId)
  | missingArgument (index : Nat) (name : String)
  | noEngineFunction (ordinal : UInt16)
  | tooManyFunctions
  | overflow (bytes : Int)
  deriving DecidableEq, Repr

namespace GenFault

def message : GenFault → String
  | noDefinition func => "function " ++ toString func ++ " has no definition"
  | notAFunction index => "item " ++ toString index ++ " is not a function"
  | labelDepths label expected actual =>
    "label " ++ toString label ++ " reached at stack depth " ++ toString expected ++ " and " ++
      toString actual
  | exitDepth routine actual expected =>
    "stack depth " ++ toString actual ++ " at exit of '" ++ routine ++ "', expected " ++
      toString expected
  | underflow bytes => "stack underflow by " ++ toString bytes ++ " bytes"
  | declNotAnalyzed node => "declaration " ++ toString node ++ " was not analyzed"
  | noType node => "expression " ++ toString node ++ " has no type"
  | noStorage name => "variable '" ++ name ++ "' has no storage"
  | unknownVariable var => "variable " ++ toString var ++ " is not known"
  | unknownStruct name => "unknown structure '" ++ name ++ "'"
  | notReservable type => "cannot reserve " ++ type.text
  | misplacedLabel => "case label outside of a switch body"
  | misplacedBreak => "break outside of a loop"
  | misplacedContinue => "continue outside of a loop"
  | caseNotFolded => "case label was not folded"
  | noEncoding lhs op rhs => "no encoding for " ++ lhs.text ++ " " ++ op.text ++ " " ++ rhs.text
  | identNotResolved node => "identifier " ++ toString node ++ " was not resolved"
  | noField type field => type.text ++ " has no field '" ++ field ++ "'"
  | targetWithoutStorage => "assignment target has no storage"
  | callNotResolved node => "call " ++ toString node ++ " was not resolved"
  | missingArgument index name => "missing argument " ++ toString index ++ " to '" ++ name ++ "'"
  | noEngineFunction ordinal => "no engine function " ++ toString ordinal.toNat
  | tooManyFunctions => "more functions called than declared"
  | overflow bytes => "depth or offset " ++ toString bytes ++ " does not fit into 32 bits"

def fatal (f : GenFault) : Fatal := .internal f.message

end GenFault

/-! ## Frames -/

/-- The offsets of the global variables that take up storage, and their total size. -/
structure GlobalLayout where
  offsets : List (VarId × Int) := []
  size : Int := 0
  deriving Repr

structure GenContext where
  analysis : Analysis
  engine : EngineTable
  globals : GlobalLayout

/-- The part of a frame that does not change within a function. Depth zero is above the
parameters. -/
structure Frame where
  paramsSize : Int := 0
  /-- The bottom and the size of the slot that the caller reserved for the result. -/
  result : Option (Int × Int) := none
  /-- Where a return goes. -/
  exit : Label

structure JumpTarget where
  leave : Label
  /-- None for a switch, which passes a continue on. -/
  again : Option Label
  /-- The depth at both labels. -/
  depth : Int
  deriving Repr

structure GenState where
  nextLabel : Label := 0
  funcLabels : List (FuncId × Label) := []
  /-- Functions that are called and not generated yet. -/
  queue : List FuncId := []
  /-- The bytes pushed since the start of the routine. -/
  depth : Int := 0
  /-- The bottoms of the parameters and local variables. -/
  locals : List (VarId × Int) := []
  labelDepths : List (Label × Int) := []
  deriving Repr

abbrev Gen (α : Type) := StateT GenState (Except GenFault) α

namespace Gen

/-! ## Labels -/

def newLabel : Gen Label := do
  let s ← get
  set { s with nextLabel := s.nextLabel + 1 }
  return s.nextLabel

def funcLabel (func : FuncId) : Gen Label := do
  match (← get).funcLabels.lookup func with
  | some label => return label
  | none =>
    let label ← newLabel
    modify fun s =>
      { s with funcLabels := (func, label) :: s.funcLabels, queue := s.queue ++ [func] }
    return label

/-- Note that a label is reached at the present depth. -/
def bind (label : Label) : Gen Unit := do
  let s ← get
  match s.labelDepths.lookup label with
  | some expected =>
    if expected = s.depth then return else throw (.labelDepths label expected s.depth)
  | none => set { s with labelDepths := (label, s.depth) :: s.labelDepths }

/-! ## Lines -/

/-- A depth or an offset, which 32 bits must hold. -/
def fit (bytes : Int) : Gen Int :=
  if -0x80000000 ≤ bytes ∧ bytes < 0x80000000 then return bytes else throw (.overflow bytes)

def depth : Gen Int := do return (← get).depth

def setDepth (depth : Int) : Gen Unit := modify fun s => { s with depth }

def addDepth (effect : Int) : Gen Unit := do setDepth (← fit ((← depth) + effect))

def emit (i : Instr) : Gen (List Op) := do
  addDepth (i.effect?.getD 0)
  return [.instr i]

def jump (kind : JumpKind) (label : Label) : Gen (List Op) := do
  addDepth ((Op.jump kind label).effect?.getD 0)
  bind label
  return [.jump kind label]

def emitCall (op : Op) (effect : Int) : Gen (List Op) := do
  addDepth effect
  return [op]

def mark (label : Label) : Gen (List Op) := do
  bind label
  return [.mark label]

def checkDepth (expected : Int) (routine : String) : Gen Unit := do
  let depth ← depth
  if depth = expected then return else throw (.exitDepth routine depth expected)

def moveSp (offset : Int) : Gen (List Op) := do emit (.moveSp (.ofInt (← fit offset)))

def popTo (target : Int) : Gen (List Op) := do
  let extra := (← depth) - target
  if extra = 0 then return []
  else if 0 < extra then moveSp (-extra)
  else throw (.underflow (-extra))

/-! ## Looking things up -/

def orFault {α : Type} (fault : GenFault) : Option α → Gen α
  | some a => return a
  | none => throw fault

def declVar (c : GenContext) (node : NodeId) : Gen VarId :=
  orFault (.declNotAnalyzed node) (c.analysis.decls.get? node)

def varInfo (c : GenContext) (var : VarId) : Gen VarInfo :=
  orFault (.unknownVariable var) c.analysis.vars[var]?

def typeOf (c : GenContext) (e : Expr) : Gen Ty :=
  orFault (.noType e.id) (c.analysis.types.get? e.id)

/-- Where a variable lives: the bottom in the frame, or the offset among the global variables. -/
inductive Slot where
  | stack (bottom : Int)
  | global (offset : Int)

def slot (c : GenContext) (var : VarId) : Gen Slot := do
  match (← get).locals.lookup var, c.globals.offsets.lookup var with
  | some bottom, _ => return .stack bottom
  | none, some offset => return .global offset
  | none, none => throw (.noStorage (← varInfo c var).name)

def address (c : GenContext) (var : VarId) (offset : Int) : Gen (Base × Int32) := do
  match ← slot c var with
  | .stack bottom => return (.stack, .ofInt (← fit (bottom + offset - (← depth))))
  | .global start => return (.globals, .ofInt (← fit (start + offset - c.globals.size)))

/-! ## Values -/

def constant : Value → Gen (List Op)
  | .int n => emit (.const (.int n))
  | .float x => emit (.const (.float x))
  | .string bytes => emit (.const (.string bytes))
  | .object n => emit (.const (.object n))
  | .vector x y z => do
    return (← emit (.const (.float x))) ++ (← emit (.const (.float y))) ++
      (← emit (.const (.float z)))

def reserveCells (otherwise : Gen (List Op)) : Ty → Gen (List Op)
  | .int => emit (.reserve TypeByte.int)
  | .float => emit (.reserve TypeByte.float)
  | .string => emit (.reserve TypeByte.string)
  | .object => emit (.reserve TypeByte.object)
  | .engine slot _ => emit (.reserve (TypeByte.engineBase + slot))
  | .vector => do
    return (← emit (.reserve TypeByte.float)) ++ (← emit (.reserve TypeByte.float)) ++
      (← emit (.reserve TypeByte.float))
  | _ => otherwise

def sequence : List (Gen (List Op)) → Gen (List Op)
  | [] => return []
  | g :: gs => do
    let first ← g
    return first ++ (← sequence gs)

/-- Push the cells of a type, given the structures; a structure has fields of the structures before
it only. -/
def reserveIn : List StructDef → Ty → Gen (List Op)
  | [], .struct name => throw (.unknownStruct name)
  | d :: older, .struct name =>
    if d.name = name then sequence (d.fields.map fun f => reserveIn older f.type)
    else reserveIn older (.struct name)
  | _, type => reserveCells (throw (.notReservable type)) type

def reserve (c : GenContext) (type : Ty) : Gen (List Op) := reserveIn c.analysis.structs.defs type

def load (c : GenContext) (var : VarId) (offset size : Int) : Gen (List Op) := do
  let (base, at_) ← address c var offset
  emit (.copyTop base at_ (.ofInt size))

/-- Copy the value on top of the stack into a part of a variable, and leave it there. -/
def store (c : GenContext) (var : VarId) (offset size : Int) : Gen (List Op) := do
  let (base, at_) ← address c var offset
  emit (.copyDown base at_ (.ofInt size))

def stepVar (c : GenContext) (s : Step) (var : VarId) : Gen (List Op) := do
  let (base, at_) ← address c var 0
  emit (.step s base at_)

end Gen
end Nwscript
