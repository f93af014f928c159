import Nwscript.Code.Op
import Nwscript.Fatal

/-! # Objects

The file format of compiled units: a header with the total size, then the instructions. Linking lays
the routines out one after the other and turns labels into offsets. -/

namespace Nwscript

/-! ## Faults -/

inductive LinkFault where
  | placedTwice (label : Label)
  | unresolved (label : Label)
  | stringTooLong (length : Nat)
  deriving DecidableEq, Repr

def LinkFault.message : LinkFault → String
  | placedTwice label => "label " ++ toString label ++ " placed twice"
  | unresolved label => "unresolved label " ++ toString label
  | stringTooLong length => "string constant of " ++ toString length ++ " bytes"

def LinkFault.fatal (f : LinkFault) : Fatal := .internal f.message

/-! ## Bytes -/

def bigEndian16 (n : UInt16) : Bytes := [(n >>> 8).toUInt8, n.toUInt8]

def bigEndian32 (n : UInt32) : Bytes :=
  [(n >>> 24).toUInt8, (n >>> 16).toUInt8, (n >>> 8).toUInt8, n.toUInt8]

def signed32 (n : Int32) : Bytes := bigEndian32 n.toUInt32

def signature : Bytes := [0x4E, 0x43, 0x53, 0x20, 0x56, 0x31, 0x2E, 0x30]

def sizeMark : UInt8 := 0x42

def headerSize : Nat := 13

def header (size : Nat) : Bytes := signature ++ [sizeMark] ++ bigEndian32 size.toUInt32

/-! ## Encoding -/

def encodeConstant : Constant → Except LinkFault Bytes
  | .int n => .ok ([Opcode.const, TypeByte.int] ++ signed32 n)
  | .float x => .ok ([Opcode.const, TypeByte.float] ++ bigEndian32 x.bits)
  | .string bytes =>
    if bytes.length < 65536 then
      .ok ([Opcode.const, TypeByte.string] ++ bigEndian16 bytes.length.toUInt16 ++ bytes)
    else .error (.stringTooLong bytes.length)
  | .object n => .ok ([Opcode.const, TypeByte.object] ++ signed32 n)

def copyDownOpcode : Base → UInt8
  | .stack => Opcode.cpDownSp
  | .globals => Opcode.cpDownBp

def copyTopOpcode : Base → UInt8
  | .stack => Opcode.cpTopSp
  | .globals => Opcode.cpTopBp

def stepOpcode : Step → Base → UInt8
  | .increment, .stack => Opcode.incSp
  | .decrement, .stack => Opcode.decSp
  | .increment, .globals => Opcode.incBp
  | .decrement, .globals => Opcode.decBp

def jumpOpcode : JumpKind → UInt8
  | .always => Opcode.jmp
  | .call => Opcode.jsr
  | .ifZero => Opcode.jz
  | .ifNonzero => Opcode.jnz

def encodeInstr : Instr → Except LinkFault Bytes
  | .copyDown base offset size =>
    .ok ([copyDownOpcode base, TypeByte.copy] ++ signed32 offset ++ bigEndian16 size)
  | .copyTop base offset size =>
    .ok ([copyTopOpcode base, TypeByte.copy] ++ signed32 offset ++ bigEndian16 size)
  | .reserve type => .ok [Opcode.rsAdd, type]
  | .const c => encodeConstant c
  | .action ordinal argc => .ok ([Opcode.action, TypeByte.void] ++ bigEndian16 ordinal ++ [argc])
  | .binary opcode pair => .ok [opcode, pair]
  | .compare opcode size => .ok ([opcode, PairByte.structStruct] ++ bigEndian16 size)
  | .neg type => .ok [Opcode.neg, type]
  | .comp => .ok [Opcode.comp, TypeByte.int]
  | .not => .ok [Opcode.not, TypeByte.int]
  | .moveSp offset => .ok ([Opcode.movSp, TypeByte.void] ++ signed32 offset)
  | .ret => .ok [Opcode.retn, TypeByte.void]
  | .destruct size keepOffset keepSize =>
    .ok ([Opcode.destruct, TypeByte.copy] ++ bigEndian16 size ++ bigEndian16 keepOffset ++
      bigEndian16 keepSize)
  | .step s base offset => .ok ([stepOpcode s base, TypeByte.int] ++ signed32 offset)
  | .saveBp => .ok [Opcode.saveBp, TypeByte.void]
  | .restoreBp => .ok [Opcode.restoreBp, TypeByte.void]
  | .storeState globals frame =>
    .ok ([Opcode.storeState, TypeByte.storedState] ++ bigEndian32 globals ++ bigEndian32 frame)
  | .nop => .ok [Opcode.nop, TypeByte.void]

def encodeJump (kind : JumpKind) (distance : Int32) : Bytes :=
  [jumpOpcode kind, TypeByte.void] ++ signed32 distance

/-! ## Layout -/

abbrev LabelOffsets := List (Label × Nat)

def labelOffset (labels : LabelOffsets) (label : Label) : Except LinkFault Nat :=
  match labels.lookup label with
  | some offset => .ok offset
  | none => .error (.unresolved label)

/-- Lay lines out from an offset: the offset behind them, and their labels added to `labels`. -/
def placeOps : List Op → Nat → LabelOffsets → Except LinkFault (Nat × LabelOffsets)
  | [], offset, labels => .ok (offset, labels)
  | .mark label :: ops, offset, labels =>
    match labels.lookup label with
    | some _ => .error (.placedTwice label)
    | none => placeOps ops offset ((label, offset) :: labels)
  | op :: ops, offset, labels => placeOps ops (offset + op.size) labels

structure RoutineInfo where
  name : String
  offset : Nat
  size : Nat
  deriving DecidableEq, Repr

structure Layout where
  routines : List RoutineInfo
  labels : LabelOffsets
  size : Nat
  deriving DecidableEq, Repr

def placeRoutines : List Routine → Nat → LabelOffsets → Except LinkFault Layout
  | [], offset, labels => .ok ⟨[], labels, offset⟩
  | r :: rs, offset, labels => do
    let (stop, labels) ← placeOps r.ops offset labels
    let layout ← placeRoutines rs stop labels
    return { layout with routines := ⟨r.name, offset, stop - offset⟩ :: layout.routines }

/-! ## Linking -/

def encodeOp (labels : LabelOffsets) (offset : Nat) : Op → Except LinkFault Bytes
  | .instr i => encodeInstr i
  | .jump kind label => do
    let target ← labelOffset labels label
    return encodeJump kind (.ofInt ((target : Int) - offset))
  | .mark _ => .ok []

def encodeOps (labels : LabelOffsets) : List Op → Nat → Except LinkFault Bytes
  | [], _ => .ok []
  | op :: ops, offset => do
    let first ← encodeOp labels offset op
    return first ++ (← encodeOps labels ops (offset + first.length))

structure Object where
  /-- The whole file. -/
  bytes : Bytes
  globalsSize : Int
  /-- Where the entry function stands. -/
  entryOffset : Option Nat
  routines : List RoutineInfo
  deriving DecidableEq, Repr

def Object.code (o : Object) : Bytes := o.bytes.drop headerSize

def link (code : Code) : Except LinkFault Object := do
  let layout ← placeRoutines code.routines headerSize []
  let body ← encodeOps layout.labels (code.routines.flatMap Routine.ops) headerSize
  let entryOffset ← code.entry.mapM (labelOffset layout.labels)
  return { bytes := header layout.size ++ body, globalsSize := code.globalsSize, entryOffset,
           routines := layout.routines }

end Nwscript
