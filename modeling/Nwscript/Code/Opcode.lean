import Nwscript.Syntax.Operator
import Nwscript.Types.Basic

/-! # Bytes of instructions

An instruction begins with its opcode and a byte that tells the types of its operands. -/

namespace Nwscript

namespace Opcode

def cpDownSp : UInt8 := 0x01
def rsAdd : UInt8 := 0x02
def cpTopSp : UInt8 := 0x03
def const : UInt8 := 0x04
def action : UInt8 := 0x05
def logAnd : UInt8 := 0x06
def logOr : UInt8 := 0x07
def bitOr : UInt8 := 0x08
def bitXor : UInt8 := 0x09
def bitAnd : UInt8 := 0x0A
def equal : UInt8 := 0x0B
def notEqual : UInt8 := 0x0C
def greaterEqual : UInt8 := 0x0D
def greater : UInt8 := 0x0E
def less : UInt8 := 0x0F
def lessEqual : UInt8 := 0x10
def shiftLeft : UInt8 := 0x11
def shiftRight : UInt8 := 0x12
def shiftRightUnsigned : UInt8 := 0x13
def add : UInt8 := 0x14
def sub : UInt8 := 0x15
def mul : UInt8 := 0x16
def div : UInt8 := 0x17
def mod : UInt8 := 0x18
def neg : UInt8 := 0x19
def comp : UInt8 := 0x1A
def movSp : UInt8 := 0x1B
def jmp : UInt8 := 0x1D
def jsr : UInt8 := 0x1E
def jz : UInt8 := 0x1F
def retn : UInt8 := 0x20
def destruct : UInt8 := 0x21
def not : UInt8 := 0x22
def decSp : UInt8 := 0x23
def incSp : UInt8 := 0x24
def jnz : UInt8 := 0x25
def cpDownBp : UInt8 := 0x26
def cpTopBp : UInt8 := 0x27
def decBp : UInt8 := 0x28
def incBp : UInt8 := 0x29
def saveBp : UInt8 := 0x2A
def restoreBp : UInt8 := 0x2B
def storeState : UInt8 := 0x2C
def nop : UInt8 := 0x2D

def ofBinOp : BinOp → UInt8
  | .logAnd => logAnd
  | .logOr => logOr
  | .bitOr => bitOr
  | .bitXor => bitXor
  | .bitAnd => bitAnd
  | .eq => equal
  | .ne => notEqual
  | .ge => greaterEqual
  | .gt => greater
  | .lt => less
  | .le => lessEqual
  | .shl => shiftLeft
  | .shr => shiftRight
  | .ushr => shiftRightUnsigned
  | .add => add
  | .sub => sub
  | .mul => mul
  | .div => div
  | .mod => mod

end Opcode

/-! ## Types of one operand -/

namespace TypeByte

def void : UInt8 := 0x00
def copy : UInt8 := 0x01
def int : UInt8 := 0x03
def float : UInt8 := 0x04
def string : UInt8 := 0x05
def object : UInt8 := 0x06
/-- The first engine type; the others follow. -/
def engineBase : UInt8 := 0x10
def storedState : UInt8 := 0x10

end TypeByte

/-! ## Types of two operands -/

namespace PairByte

def intInt : UInt8 := 0x20
def floatFloat : UInt8 := 0x21
def objectObject : UInt8 := 0x22
def stringString : UInt8 := 0x23
def structStruct : UInt8 := 0x24
def intFloat : UInt8 := 0x25
def floatInt : UInt8 := 0x26
/-- Two values of the first engine type; the others follow. -/
def engineBase : UInt8 := 0x30
def vectorVector : UInt8 := 0x3A
def vectorFloat : UInt8 := 0x3B
def floatVector : UInt8 := 0x3C

/-- The byte of a pair of types, if an operator can take them. -/
def ofTypes? : Ty → Ty → Option UInt8
  | .int, .int => some intInt
  | .float, .float => some floatFloat
  | .object, .object => some objectObject
  | .string, .string => some stringString
  | .int, .float => some intFloat
  | .float, .int => some floatInt
  | .vector, .vector => some vectorVector
  | .vector, .float => some vectorFloat
  | .float, .vector => some floatVector
  | .engine a _, .engine b _ => if a = b then some (engineBase + a) else none
  | _, _ => none

end PairByte
end Nwscript
