import Nwscript.Code.Opcode
import Nwscript.Syntax.Basic
import Nwscript.Types.Struct

/-! # Instructions

The instructions of the stack machine. Jumps go to labels; a mark stands where a label is and takes
up no room. -/

namespace Nwscript

/-- The number of a label, unique within a unit. Numbers do not run out. -/
abbrev Label := Nat

/-- What an offset counts from: the top of the stack, or the top of the global variables. -/
inductive Base where
  | stack
  | globals
  deriving DecidableEq, Repr

inductive Constant where
  | int (n : Int32)
  | float (x : Single)
  | string (bytes : Bytes)
  | object (n : Int32)
  deriving DecidableEq, Repr

inductive Instr where
  | copyDown (base : Base) (offset : Int32) (size : UInt16)
  | copyTop (base : Base) (offset : Int32) (size : UInt16)
  /-- Push a cell of a type. -/
  | reserve (type : UInt8)
  | const (c : Constant)
  /-- Call a function of the engine. -/
  | action (ordinal : UInt16) (argc : UInt8)
  | binary (opcode pair : UInt8)
  | compare (opcode : UInt8) (size : UInt16)
  | neg (type : UInt8)
  | comp
  | not
  | moveSp (offset : Int32)
  | ret
  | destruct (size keepOffset keepSize : UInt16)
  /-- Step an integer in place. -/
  | step (s : Step) (base : Base) (offset : Int32)
  | saveBp
  | restoreBp
  | storeState (globals frame : UInt32)
  | nop
  deriving DecidableEq, Repr

inductive JumpKind where
  | always
  | call
  | ifZero
  | ifNonzero
  deriving DecidableEq, Repr

inductive Op where
  | instr (i : Instr)
  | jump (kind : JumpKind) (label : Label)
  | mark (label : Label)
  deriving DecidableEq, Repr

/-! ## Sizes and effects -/

def Instr.size : Instr → Nat
  | reserve _ | binary _ _ | neg _ | comp | not | ret | saveBp | restoreBp | nop => 2
  | compare _ _ => 4
  | action _ _ => 5
  | moveSp _ | step _ _ _ => 6
  | copyDown _ _ _ | copyTop _ _ _ | destruct _ _ _ => 8
  | storeState _ _ => 10
  | const (.string bytes) => 4 + bytes.length
  | const _ => 6

def Op.size : Op → Nat
  | instr i => i.size
  | jump _ _ => 6
  | mark _ => 0

/-- The change of the depth of the stack. Calls of the engine have none of their own. -/
def Instr.effect? : Instr → Option Int
  | reserve _ | const _ | saveBp => some cellSize
  | copyTop _ _ size => some size.toNat
  | binary _ pair =>
    some (if pair = PairByte.vectorVector then -3 * cellSize else -cellSize)
  | compare _ size => some (cellSize - 2 * size.toNat)
  | moveSp offset => some offset.toInt
  | restoreBp => some (-cellSize)
  | destruct size _ keepSize => some (keepSize.toNat - size.toNat)
  | action _ _ => none
  | _ => some 0

namespace Instr

@[simp] theorem effect?_reserve (type : UInt8) : (reserve type).effect? = some cellSize := rfl

@[simp] theorem effect?_const (v : Constant) : (const v).effect? = some cellSize := rfl

@[simp] theorem effect?_copyTop (base : Base) (offset : Int32) (size : UInt16) :
    (copyTop base offset size).effect? = some (size.toNat : Int) := rfl

@[simp] theorem effect?_copyDown (base : Base) (offset : Int32) (size : UInt16) :
    (copyDown base offset size).effect? = some 0 := rfl

@[simp] theorem effect?_step (s : Step) (base : Base) (offset : Int32) :
    (step s base offset).effect? = some 0 := rfl

@[simp] theorem effect?_compare (op : UInt8) (size : UInt16) :
    (compare op size).effect? = some (cellSize - 2 * size.toNat : Int) := rfl

@[simp] theorem effect?_moveSp (offset : Int32) : (moveSp offset).effect? = some offset.toInt := rfl

@[simp] theorem effect?_destruct (size keep keepSize : UInt16) :
    (destruct size keep keepSize).effect? = some (keepSize.toNat - size.toNat : Int) := rfl

end Instr

/-- The change of the depth of the stack. Calls have none of their own: it depends on what is
called. -/
def Op.effect? : Op → Option Int
  | instr i => i.effect?
  | jump .always _ => some 0
  | jump .call _ => none
  | jump _ _ => some (-cellSize)
  | mark _ => some 0

/-! ## Code -/

/-- The code of a function; it begins with the mark of its label. -/
structure Routine where
  name : String
  label : Label
  ops : List Op
  deriving DecidableEq, Repr

structure Code where
  routines : List Routine
  /-- The number of bytes of the global variables. -/
  globalsSize : Int
  entry : Option Label
  deriving DecidableEq, Repr

end Nwscript
