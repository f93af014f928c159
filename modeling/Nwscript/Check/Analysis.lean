import Nwscript.Check.Scope
import Nwscript.Syntax.Basic
import Nwscript.Types.Struct

/-! # What is known about a program

Tables beside the tree of a program: the types and values of its expressions, what its names stand
for, and its variables, functions and structures. -/

namespace Nwscript

/-! ## Tables -/

/-- What is known about nodes, by their numbers; the last entry first. -/
structure NodeTable (α : Type) where
  entries : List (NodeId × α) := []
  deriving Repr, Inhabited

namespace NodeTable

variable {α : Type}

def get? (t : NodeTable α) (id : NodeId) : Option α := t.entries.lookup id

def insert (t : NodeTable α) (id : NodeId) (a : α) : NodeTable α := ⟨(id, a) :: t.entries⟩

@[simp] theorem get?_insert_self (t : NodeTable α) (id : NodeId) (a : α) :
    (t.insert id a).get? id = some a := by
  simp [get?, insert]

theorem get?_insert_ne (t : NodeTable α) {id other : NodeId} (a : α) (h : other ≠ id) :
    (t.insert id a).get? other = t.get? other := by
  have hb : (other == id) = false := by simpa using h
  rw [get?, insert, List.lookup_cons, hb]
  rfl

end NodeTable

/-- The entries of a table in the order of their keys. Of several with one key the first counts. -/
def sortByKey {α : Type} (entries : List (Nat × α)) : List (Nat × α) :=
  (entries.mergeSort fun a b => a.1 ≤ b.1).foldr
    (fun a rest =>
      match rest with
      | b :: more => if a.1 = b.1 then a :: more else a :: rest
      | [] => [a])
    []

/-! ## Variables and functions -/

inductive VarKind where
  | global
  | param
  | local
  deriving DecidableEq, Repr

def VarKind.text : VarKind → String
  | .global => "global"
  | .param => "param"
  | .local => "local"

structure VarInfo where
  name : String
  type : Ty
  kind : VarKind
  isConst : Bool
  value : Option Value
  pos : Pos
  deriving DecidableEq, Repr

abbrev FuncId := Nat

structure FuncParam where
  name : String
  type : Ty
  default : Option Value
  deriving DecidableEq, Repr

structure FuncInfo where
  name : String
  ret : Ty
  params : List FuncParam
  /-- A body has been seen. -/
  defined : Bool
  /-- The first declaration. -/
  pos : Pos
  deriving DecidableEq, Repr

/-- The number of leading parameters without a default. -/
def FuncInfo.required (f : FuncInfo) : Nat :=
  (f.params.takeWhile fun p => p.default.isNone).length

inductive Callee where
  | user (id : FuncId)
  | engine (ordinal : UInt16)
  deriving DecidableEq, Repr

inductive EntryKind where
  /-- A script that is run. -/
  | main
  /-- A script that answers a question. -/
  | startingConditional
  deriving DecidableEq, Repr

namespace EntryKind

def name : EntryKind → String
  | main => "main"
  | startingConditional => "StartingConditional"

def ret : EntryKind → Ty
  | main => .void
  | startingConditional => .int

def signature (k : EntryKind) : String := k.ret.text ++ " " ++ k.name ++ "()"

end EntryKind

structure EntryPoint where
  func : FuncId
  kind : EntryKind
  deriving DecidableEq, Repr

/-! ## The analysis -/

structure Analysis where
  /-- The types of the expressions without errors. -/
  types : NodeTable Ty := {}
  consts : NodeTable Value := {}
  /-- The variables that names stand for. -/
  refs : NodeTable VarId := {}
  /-- The variables of declarators and parameters. -/
  decls : NodeTable VarId := {}
  calls : NodeTable Callee := {}
  vars : Array VarInfo := #[]
  /-- The global variables in the order of their declarations. -/
  globals : List VarId := []
  functions : Array FuncInfo := #[]
  definitions : List (FuncId × Nat) := []
  structs : StructTable := {}
  entry : Option EntryPoint := none
  deriving Repr, Inhabited

namespace Analysis

def function? (a : Analysis) (name : String) : Option FuncId :=
  a.functions.findIdx? fun f => f.name == name

def definition? (a : Analysis) (id : FuncId) : Option Nat := a.definitions.lookup id

def sizeOf (a : Analysis) (type : Ty) : Int := a.structs.sizeOf type

end Analysis
end Nwscript
