import Nwscript.Types.Basic

/-! # Structures

The declared structures and the layout of types in bytes. The fields of a structure stand one after
the other. Sizes and offsets are signed 32-bit numbers; a sum that leaves their range wraps. -/

namespace Nwscript

def cellSize : Int := 4

/-- The 32-bit number that a sum wraps to. -/
def wrap32 (n : Int) : Int := Int.bmod n 0x100000000

structure Field where
  name : String
  type : Ty
  deriving DecidableEq, Repr

structure StructDef where
  name : String
  fields : List Field
  size : Int
  deriving DecidableEq, Repr

structure StructTable where
  defs : List StructDef := []
  deriving Repr, Inhabited

namespace StructTable

/-- The last declaration of a name. -/
def get? (t : StructTable) (name : String) : Option StructDef := t.defs.find? fun d => d.name == name

def contains (t : StructTable) (name : String) : Bool := (t.get? name).isSome

def sizeOf (t : StructTable) : Ty → Int
  | .void | .action => 0
  | .int | .float | .string | .object | .engine _ _ => cellSize
  | .vector => 3 * cellSize
  | .struct name =>
    match t.get? name with
    | some d => d.size
    | none => 0

def sizeOfFields (t : StructTable) (fields : List Field) : Int :=
  fields.foldl (fun size f => wrap32 (size + t.sizeOf f.type)) 0

def insert (t : StructTable) (name : String) (fields : List Field) : StructTable :=
  ⟨⟨name, fields, t.sizeOfFields fields⟩ :: t.defs⟩

/-- The offset and type of the first field of a name, for fields that begin at `offset`. -/
def fieldFrom? (t : StructTable) (name : String) : List Field → Int → Option (Int × Ty)
  | [], _ => none
  | f :: fields, offset =>
    if f.name = name then some (offset, f.type)
    else t.fieldFrom? name fields (wrap32 (offset + t.sizeOf f.type))

def field? (t : StructTable) (type : Ty) (name : String) : Option (Int × Ty) :=
  match type with
  | .vector =>
    if name = "x" then some (0, .float)
    else if name = "y" then some (cellSize, .float)
    else if name = "z" then some (2 * cellSize, .float)
    else none
  | .struct s =>
    match t.get? s with
    | some d => t.fieldFrom? name d.fields 0
    | none => none
  | _ => none

end StructTable
end Nwscript
