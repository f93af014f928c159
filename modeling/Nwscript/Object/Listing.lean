import Nwscript.Object.Decode
import Nwscript.Single.Shortest
import Nwscript.Text.Quoted

/-! # Listings of objects

One line for each instruction: its offset, its name with the types of its operands, and its
operands. Jumps show the offset they go to. -/

namespace Nwscript

/-! ## Names of types -/

def typeSuffix (type : UInt8) : String :=
  if type = TypeByte.int then "I"
  else if type = TypeByte.float then "F"
  else if type = TypeByte.string then "S"
  else if type = TypeByte.object then "O"
  else if TypeByte.engineBase ≤ type then "E" ++ toString (type - TypeByte.engineBase).toNat
  else "?" ++ Text.hexUpper 2 type.toNat

def pairSuffix (pair : UInt8) : String :=
  if pair = PairByte.intInt then "II"
  else if pair = PairByte.floatFloat then "FF"
  else if pair = PairByte.objectObject then "OO"
  else if pair = PairByte.stringString then "SS"
  else if pair = PairByte.intFloat then "IF"
  else if pair = PairByte.floatInt then "FI"
  else if pair = PairByte.vectorVector then "VV"
  else if pair = PairByte.vectorFloat then "VF"
  else if pair = PairByte.floatVector then "FV"
  else if PairByte.engineBase ≤ pair && pair < PairByte.vectorVector then
    let slot := toString (pair - PairByte.engineBase).toNat
    "E" ++ slot ++ "E" ++ slot
  else "?" ++ Text.hexUpper 2 pair.toNat

/-! ## Names of instructions -/

def operatorNames : List String :=
  ["LOGAND", "LOGOR", "INCOR", "EXCOR", "BOOLAND", "EQUAL", "NEQUAL", "GEQ", "GT", "LT", "LEQ",
    "SHLEFT", "SHRIGHT", "USHRIGHT", "ADD", "SUB", "MUL", "DIV", "MOD"]

def operatorName (opcode : UInt8) : String :=
  if opcode < Opcode.logAnd then "?"
  else operatorNames.getD (opcode - Opcode.logAnd).toNat "?"

def Base.text : Base → String
  | .stack => "SP"
  | .globals => "BP"

def Constant.typeByte : Constant → UInt8
  | int _ => TypeByte.int
  | float _ => TypeByte.float
  | string _ => TypeByte.string
  | object _ => TypeByte.object

def Instr.mnemonic : Instr → String
  | copyDown base _ _ => "CPDOWN" ++ base.text
  | copyTop base _ _ => "CPTOP" ++ base.text
  | reserve type => "RSADD" ++ typeSuffix type
  | const c => "CONST" ++ typeSuffix c.typeByte
  | action _ _ => "ACTION"
  | binary opcode pair => operatorName opcode ++ pairSuffix pair
  | compare opcode _ => operatorName opcode ++ "TT"
  | neg type => "NEG" ++ typeSuffix type
  | comp => "COMPI"
  | not => "NOTI"
  | moveSp _ => "MOVSP"
  | ret => "RETN"
  | destruct _ _ _ => "DESTRUCT"
  | step .increment base _ => "INCI" ++ base.text
  | step .decrement base _ => "DECI" ++ base.text
  | saveBp => "SAVEBP"
  | restoreBp => "RESTOREBP"
  | storeState _ _ => "STORE_STATE"
  | nop => "NOP"

def JumpKind.mnemonic : JumpKind → String
  | always => "JMP"
  | call => "JSR"
  | ifZero => "JZ"
  | ifNonzero => "JNZ"

/-! ## Operands -/

def spaced (parts : List String) : String := String.intercalate " " parts

def Constant.text : Constant → String
  | int n => toString n.toInt
  | float x => x.text
  | string bytes => Text.quotedText (Text.decode bytes)
  | object n => "0x" ++ Text.hexUpper 8 n.toUInt32.toNat

def Instr.operandText : Instr → String
  | copyDown _ offset size => spaced [toString offset.toInt, toString size.toNat]
  | copyTop _ offset size => spaced [toString offset.toInt, toString size.toNat]
  | const c => c.text
  | action ordinal argc => spaced [toString ordinal.toNat, toString argc.toNat]
  | compare _ size => toString size.toNat
  | moveSp offset => toString offset.toInt
  | destruct size keepOffset keepSize =>
    spaced [toString size.toNat, toString keepOffset.toNat, toString keepSize.toNat]
  | step _ _ offset => toString offset.toInt
  | storeState globals frame => spaced [toString globals.toNat, toString frame.toNat]
  | _ => ""

/-- A 64-bit offset; eight digits unless it needs more. -/
def offsetText (n : Int) : String := Text.hexUpper 8 (n % 0x10000000000000000).toNat

/-! ## Lines -/

structure ListedInstr where
  offset : Nat
  size : Nat
  mnemonic : String
  operands : String
  deriving DecidableEq, Repr

def Located.listed (l : Located) : ListedInstr :=
  match l.what with
  | .instr i => ⟨l.offset, l.size, i.mnemonic, i.operandText⟩
  | .jump kind distance =>
    ⟨l.offset, l.size, kind.mnemonic, offsetText (l.offset + distance.toInt)⟩

def ListedInstr.line (l : ListedInstr) : String :=
  let head := Text.hexUpper 8 l.offset ++ " " ++ l.mnemonic
  if l.operands = "" then head else head ++ " " ++ l.operands

def listInstructions (bytes : Bytes) : Except ObjectError (List ListedInstr) := do
  return (← decodeObject bytes).map Located.listed

def listingLines (bytes : Bytes) : Except ObjectError (List String) := do
  return (← listInstructions bytes).map ListedInstr.line

end Nwscript
