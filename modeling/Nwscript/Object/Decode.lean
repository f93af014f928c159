import Nwscript.Object.Link

/-! # Reading objects

The instructions of an object, one after the other from the header to the end. -/

namespace Nwscript

/-! ## Faults -/

inductive ObjectFault where
  | missingSignature
  | missingSize
  | wrongSize (recorded actual : Nat)
  | truncated
  | unknownOpcode (opcode : UInt8)
  | constantType (type : UInt8)
  deriving DecidableEq, Repr

def ObjectFault.message : ObjectFault → String
  | missingSignature => "missing NCS V1.0 signature"
  | missingSize => "expected size record"
  | wrongSize recorded actual =>
    "size record says " ++ toString recorded ++ " bytes, object has " ++ toString actual
  | truncated => "truncated instruction"
  | unknownOpcode opcode => "unknown opcode 0x" ++ Text.hexUpper 2 opcode.toNat
  | constantType type => "constant of type 0x" ++ Text.hexUpper 2 type.toNat

structure ObjectError where
  fault : ObjectFault
  offset : Nat
  deriving DecidableEq, Repr

def ObjectError.fatal (e : ObjectError) : Fatal := .malformed e.offset e.fault.message

/-! ## Reading bytes -/

structure ByteCursor where
  rest : Bytes
  offset : Nat
  deriving Repr

abbrev Decoder (α : Type) := StateT ByteCursor (Except ObjectError) α

namespace Decoder

def fail {α : Type} (fault : ObjectFault) : Decoder α := do throw ⟨fault, (← get).offset⟩

def byte : Decoder UInt8 := do
  match ← get with
  | ⟨b :: rest, offset⟩ =>
    set (⟨rest, offset + 1⟩ : ByteCursor)
    return b
  | _ => fail .truncated

def word16 : Decoder UInt16 := do
  match ← get with
  | ⟨a :: b :: rest, offset⟩ =>
    set (⟨rest, offset + 2⟩ : ByteCursor)
    return (a.toUInt16 <<< 8) ||| b.toUInt16
  | _ => fail .truncated

def word32 : Decoder UInt32 := do
  match ← get with
  | ⟨a :: b :: c :: d :: rest, offset⟩ =>
    set (⟨rest, offset + 4⟩ : ByteCursor)
    return (a.toUInt32 <<< 24) ||| (b.toUInt32 <<< 16) ||| (c.toUInt32 <<< 8) ||| d.toUInt32
  | _ => fail .truncated

def int32 : Decoder Int32 := do return (← word32).toInt32

def split : Nat → Bytes → Bytes → Option (Bytes × Bytes)
  | 0, taken, rest => some (taken.reverse, rest)
  | _ + 1, _, [] => none
  | n + 1, taken, b :: rest => split n (b :: taken) rest

def take (n : Nat) : Decoder Bytes := do
  let c ← get
  match split n [] c.rest with
  | some (taken, rest) =>
    set (⟨rest, c.offset + n⟩ : ByteCursor)
    return taken
  | none => fail .truncated

end Decoder

/-! ## Instructions -/

inductive Decoded where
  | instr (i : Instr)
  | jump (kind : JumpKind) (distance : Int32)
  deriving DecidableEq, Repr

structure Located where
  offset : Nat
  size : Nat
  what : Decoded
  deriving DecidableEq, Repr

namespace Decoder

def constant (type : UInt8) : Decoder Constant := do
  if type = TypeByte.int then return .int (← int32)
  else if type = TypeByte.float then return .float ⟨← word32⟩
  else if type = TypeByte.string then return .string (← take (← word16).toNat)
  else if type = TypeByte.object then return .object (← int32)
  else fail (.constantType type)

def copyDown (base : Base) : Decoder Decoded := do
  let offset ← int32
  return .instr (.copyDown base offset (← word16))

def copyTop (base : Base) : Decoder Decoded := do
  let offset ← int32
  return .instr (.copyTop base offset (← word16))

def step (s : Step) (base : Base) : Decoder Decoded := do return .instr (.step s base (← int32))

def jump (kind : JumpKind) : Decoder Decoded := do return .jump kind (← int32)

def binary (opcode pair : UInt8) : Decoder Decoded := do
  if pair = PairByte.structStruct then return .instr (.compare opcode (← word16))
  else return .instr (.binary opcode pair)

def operands (start : Nat) (opcode type : UInt8) : Decoder Decoded := do
  if opcode = Opcode.cpDownSp then copyDown .stack
  else if opcode = Opcode.cpTopSp then copyTop .stack
  else if opcode = Opcode.cpDownBp then copyDown .globals
  else if opcode = Opcode.cpTopBp then copyTop .globals
  else if opcode = Opcode.rsAdd then return .instr (.reserve type)
  else if opcode = Opcode.const then return .instr (.const (← constant type))
  else if opcode = Opcode.action then
    let ordinal ← word16
    return .instr (.action ordinal (← byte))
  else if Opcode.logAnd ≤ opcode && opcode ≤ Opcode.mod then binary opcode type
  else if opcode = Opcode.neg then return .instr (.neg type)
  else if opcode = Opcode.comp then return .instr .comp
  else if opcode = Opcode.not then return .instr .not
  else if opcode = Opcode.movSp then return .instr (.moveSp (← int32))
  else if opcode = Opcode.jmp then jump .always
  else if opcode = Opcode.jsr then jump .call
  else if opcode = Opcode.jz then jump .ifZero
  else if opcode = Opcode.jnz then jump .ifNonzero
  else if opcode = Opcode.retn then return .instr .ret
  else if opcode = Opcode.destruct then
    let size ← word16
    let keepOffset ← word16
    return .instr (.destruct size keepOffset (← word16))
  else if opcode = Opcode.decSp then step .decrement .stack
  else if opcode = Opcode.incSp then step .increment .stack
  else if opcode = Opcode.decBp then step .decrement .globals
  else if opcode = Opcode.incBp then step .increment .globals
  else if opcode = Opcode.saveBp then return .instr .saveBp
  else if opcode = Opcode.restoreBp then return .instr .restoreBp
  else if opcode = Opcode.storeState then
    let globals ← word32
    return .instr (.storeState globals (← word32))
  else if opcode = Opcode.nop then return .instr .nop
  else throw ⟨.unknownOpcode opcode, start⟩

def instruction : Decoder Located := do
  let start := (← get).offset
  let opcode ← byte
  let type ← byte
  let what ← operands start opcode type
  return ⟨start, (← get).offset - start, what⟩

def header (size : Nat) : Decoder Unit := do
  let c ← get
  if size < headerSize || !signature.isPrefixOf c.rest then fail .missingSignature
  else
    let _ ← take signature.length
    if (← byte) ≠ sizeMark then fail .missingSize
    else
      let recorded := (← word32).toNat
      if recorded ≠ size then fail (.wrongSize recorded size)

/-- All instructions that are left. Each takes up at least two bytes, so the number of bytes bounds
the steps. -/
def instructions : Nat → Decoder (List Located)
  | 0 => return []
  | steps + 1 => do
    if (← get).rest.isEmpty then return []
    else
      let first ← instruction
      return first :: (← instructions steps)

end Decoder

def decodeObject (bytes : Bytes) : Except ObjectError (List Located) := do
  let ((), body) ← Decoder.header bytes.length ⟨bytes, 0⟩
  let (decoded, _) ← Decoder.instructions bytes.length body
  return decoded

end Nwscript
