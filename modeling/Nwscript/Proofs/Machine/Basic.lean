import Mathlib
import Nwscript.Code.Op
import Nwscript.Value.Fold

/-! # The stack machine

What instructions do to a stack of cells, and how lines of code are run. A scalar takes up one cell, a
vector three. Operators act on values in cells as they do on constants, and have no result where they
divide by zero. The instructions for global variables, actions and the engine have no meaning here. -/

namespace Nwscript

def Value.cells : Value → List Constant
  | int n => [.int n]
  | float x => [.float x]
  | string bytes => [.string bytes]
  | object n => [.object n]
  | vector x y z => [.float z, .float y, .float x]

namespace Machine

/-! ## Operands -/

def pop? : Ty → List Constant → Option (Value × List Constant)
  | .int, .int n :: st => some (.int n, st)
  | .float, .float x :: st => some (.float x, st)
  | .string, .string bytes :: st => some (.string bytes, st)
  | .object, .object n :: st => some (.object n, st)
  | .vector, .float z :: .float y :: .float x :: st => some (.vector x y z, st)
  | _, _ => none

@[simp] theorem pop?_cells (v : Value) (st : List Constant) :
    pop? v.type (v.cells ++ st) = some (v, st) := by
  cases v <;> rfl

def binOp? (opcode : UInt8) : Option BinOp := BinOp.all.find? fun op => Opcode.ofBinOp op = opcode

@[simp] theorem binOp?_ofBinOp (op : BinOp) : binOp? (Opcode.ofBinOp op) = some op := by
  cases op <;> rfl

def pairs : List (UInt8 × Ty × Ty) :=
  [(PairByte.intInt, .int, .int), (PairByte.floatFloat, .float, .float),
    (PairByte.objectObject, .object, .object), (PairByte.stringString, .string, .string),
    (PairByte.intFloat, .int, .float), (PairByte.floatInt, .float, .int),
    (PairByte.vectorVector, .vector, .vector), (PairByte.vectorFloat, .vector, .float),
    (PairByte.floatVector, .float, .vector)]

theorem lookup_pairs {x y : Value} {pair : UInt8} (h : PairByte.ofTypes? x.type y.type = some pair) :
    pairs.lookup pair = some (x.type, y.type) := by
  cases x <;> cases y <;> cases h <;> rfl

def numberType? (type : UInt8) : Option Ty :=
  if type = TypeByte.int then some .int else if type = TypeByte.float then some .float else none

def initial? (type : UInt8) : Option Constant :=
  if type = TypeByte.int then some (.int 0)
  else if type = TypeByte.float then some (.float .zero)
  else if type = TypeByte.string then some (.string [])
  else none

def sameCell : Constant → Constant → Bool
  | .int a, .int b => a == b
  | .float a, .float b => a.eq b
  | .string a, .string b => a == b
  | .object a, .object b => a == b
  | _, _ => false

def cellsTo? (offset : Int32) : Option Nat :=
  if offset.toInt ≤ 0 ∧ offset.toInt % cellSize = 0 then some (-offset.toInt / cellSize).toNat
  else none

def cellCount? (size : UInt16) : Option Nat :=
  if size.toNat % 4 = 0 then some (size.toNat / 4) else none

def stepped : Step → Int32 → Int32
  | .increment, n => n + 1
  | .decrement, n => n - 1

/-! ## Instructions -/

variable (st : List Constant)

/-- Push a copy of `k` cells that begin `n` cells below the top. -/
def copyTop? (n k : Nat) : Option (List Constant) :=
  if k ≤ n ∧ n ≤ st.length then some ((st.drop (n - k)).take k ++ st) else none

/-- Copy the top `k` cells to those that begin `n` cells below the top. -/
def copyDown? (n k : Nat) : Option (List Constant) :=
  if k ≤ n ∧ n ≤ st.length then some (st.take (n - k) ++ st.take k ++ st.drop n) else none

def binary? (op : BinOp) (lhs rhs : Ty) : Option (List Constant) := do
  let (y, st) ← pop? rhs st
  let (x, st) ← pop? lhs st
  let v ← (foldBinary op x y).toOption
  return v.cells ++ st

def unary? (op : UnOp) (type : Ty) : Option (List Constant) := do
  let (x, st) ← pop? type st
  let v ← (foldUnary op x).toOption
  return v.cells ++ st

def compare? (op : BinOp) (k : Nat) : Option (List Constant) :=
  if 2 * k ≤ st.length then
    let same := (List.zipWith sameCell ((st.drop k).take k) (st.take k)).all id
    (foldEquality op same).toOption.map fun v => v.cells ++ st.drop (2 * k)
  else none

/-- Of the top `n` cells keep the `k` cells that begin `below` cells above the lowest of them. -/
def keep? (n below k : Nat) : Option (List Constant) :=
  if below + k ≤ n ∧ n ≤ st.length then some ((st.drop (n - below - k)).take k ++ st.drop n)
  else none

/-- Step the integer `n` cells below the top, the top cell being the first. -/
def step? (s : Step) (n : Nat) : Option (List Constant) :=
  match st[n - 1]? with
  | some (.int m) => if 0 < n then some (st.set (n - 1) (.int (stepped s m))) else none
  | _ => none

def apply : Instr → Option (List Constant)
  | .copyDown .stack offset size => do copyDown? st (← cellsTo? offset) (← cellCount? size)
  | .copyTop .stack offset size => do copyTop? st (← cellsTo? offset) (← cellCount? size)
  | .reserve type => (initial? type).map (· :: st)
  | .const c => some (c :: st)
  | .binary opcode pair => do
    let (lhs, rhs) ← pairs.lookup pair
    binary? st (← binOp? opcode) lhs rhs
  | .compare opcode size => do compare? st (← binOp? opcode) (← cellCount? size)
  | .neg type => do unary? st .neg (← numberType? type)
  | .comp => unary? st .bitNot .int
  | .not => unary? st .not .int
  | .moveSp offset => do
    let n ← cellsTo? offset
    if n ≤ st.length then some (st.drop n) else none
  | .destruct size below keep => do
    keep? st (← cellCount? size) (← cellCount? below) (← cellCount? keep)
  | .step s .stack offset => do step? st s (← cellsTo? offset)
  | .nop => some st
  | _ => none

section Apply

variable {st}

theorem apply_copyDown_eq (offset : Int32) (size : UInt16) : apply st (.copyDown .stack offset size) =
    (cellsTo? offset).bind fun n => (cellCount? size).bind fun k => copyDown? st n k := rfl

theorem apply_copyTop_eq (offset : Int32) (size : UInt16) : apply st (.copyTop .stack offset size) =
    (cellsTo? offset).bind fun n => (cellCount? size).bind fun k => copyTop? st n k := rfl

theorem apply_const (c : Constant) : apply st (.const c) = some (c :: st) := rfl

theorem apply_binary_eq (opcode pair : UInt8) : apply st (.binary opcode pair) =
    (pairs.lookup pair).bind fun types => (binOp? opcode).bind fun op =>
      binary? st op types.1 types.2 := rfl

theorem apply_compare_eq (opcode : UInt8) (size : UInt16) : apply st (.compare opcode size) =
    (binOp? opcode).bind fun op => (cellCount? size).bind fun k => compare? st op k := rfl

theorem apply_destruct_eq (size below keep : UInt16) : apply st (.destruct size below keep) =
    (cellCount? size).bind fun n => (cellCount? below).bind fun m => (cellCount? keep).bind fun k =>
      keep? st n m k := rfl

theorem apply_step_eq (s : Step) (offset : Int32) : apply st (.step s .stack offset) =
    (cellsTo? offset).bind fun n => step? st s n := rfl

end Apply

/-! ## Runs -/

/-- A state of the machine: the line it is at, the stack, and where the calls return to. -/
structure State where
  pc : Nat
  stack : List Constant
  back : List Nat

def place (lines : List Op) (label : Label) : Nat := lines.idxOf (.mark label)

def branch? (lines : List Op) (label : Label) (test : Int32 → Bool) (s : State) : Option State :=
  match s.stack with
  | .int n :: st => some ⟨if test n then place lines label else s.pc + 1, st, s.back⟩
  | _ => none

/-- One line of a run. The machine stops at a return from no call, behind the last line, and where an
instruction has no result. -/
def step (lines : List Op) (s : State) : Option State :=
  match lines[s.pc]? with
  | some (.mark _) => some ⟨s.pc + 1, s.stack, s.back⟩
  | some (.instr .ret) =>
    match s.back with
    | pc :: back => some ⟨pc, s.stack, back⟩
    | [] => none
  | some (.instr i) => (apply s.stack i).map fun st => ⟨s.pc + 1, st, s.back⟩
  | some (.jump .always label) => some ⟨place lines label, s.stack, s.back⟩
  | some (.jump .call label) => some ⟨place lines label, s.stack, (s.pc + 1) :: s.back⟩
  | some (.jump .ifZero label) => branch? lines label (· == 0) s
  | some (.jump .ifNonzero label) => branch? lines label (· != 0) s
  | none => none

def Runs (lines : List Op) : Nat → State → State → Prop
  | 0, s, t => s = t
  | n + 1, s, t => ∃ s', step lines s = some s' ∧ Runs lines n s' t

def Reaches (lines : List Op) (s t : State) : Prop := ∃ n, Runs lines n s t

def Stuck (lines : List Op) (s : State) : Prop :=
  ∃ i, lines[s.pc]? = some (.instr i) ∧ i ≠ .ret ∧ apply s.stack i = none

section Runs

variable {lines : List Op} {n m : Nat} {s t u : State}

theorem Runs.trans (h : Runs lines n s t) (h' : Runs lines m t u) : Runs lines (n + m) s u := by
  induction n generalizing s with
  | zero =>
    obtain rfl : s = t := h
    rwa [Nat.zero_add]
  | succ n ih =>
    obtain ⟨s', hstep, hrest⟩ := h
    rw [Nat.add_right_comm]
    exact ⟨s', hstep, ih hrest⟩

theorem Runs.one (h : step lines s = some t) : Runs lines 1 s t := ⟨t, h, rfl⟩

theorem Runs.rest (h : Runs lines n s t) (h' : Runs lines m s u) (hle : n ≤ m) :
    Runs lines (m - n) t u := by
  induction n generalizing s m with
  | zero =>
    obtain rfl : s = t := h
    exact h'
  | succ n ih =>
    obtain ⟨s', hstep, hrest⟩ := h
    obtain ⟨m, rfl⟩ : ∃ k, m = k + 1 := ⟨m - 1, by omega⟩
    obtain ⟨s'', hstep', hrest'⟩ := h'
    cases hstep.symm.trans hstep'
    rw [Nat.add_sub_add_right]
    exact ih hrest hrest' (by omega)

theorem Runs.le_of_stopped (h : Runs lines n s t) (hstop : step lines t = none)
    (h' : Runs lines m s u) : m ≤ n := by
  by_contra hlt
  have hrest := h.rest h' (by omega)
  obtain ⟨k, hk⟩ : ∃ k, m - n = k + 1 := ⟨m - n - 1, by omega⟩
  rw [hk] at hrest
  obtain ⟨t', hstep, -⟩ := hrest
  cases hstop.symm.trans hstep

theorem Reaches.stopped_unique (h : Reaches lines s t) (hstop : step lines t = none)
    (h' : Reaches lines s u) (hstop' : step lines u = none) : t = u := by
  obtain ⟨n, h⟩ := h
  obtain ⟨m, h'⟩ := h'
  have hle := h.le_of_stopped hstop h'
  have hge := h'.le_of_stopped hstop' h
  have hrest := h.rest h' hge
  obtain rfl : n = m := by omega
  rw [Nat.sub_self] at hrest
  exact hrest

end Runs

/-! ## Lines at a place -/

def Located (lines : List Op) (p : Nat) (ops : List Op) : Prop :=
  ∀ i op, ops[i]? = some op → lines[p + i]? = some op

section Located

variable {lines ops ops' : List Op} {p : Nat} {op : Op}

@[simp] theorem located_nil : Located lines p [] := by simp [Located]

@[simp] theorem located_append :
    Located lines p (ops ++ ops') ↔ Located lines p ops ∧ Located lines (p + ops.length) ops' := by
  constructor
  · intro h
    constructor
    · intro i op hop
      refine h i op ?_
      rwa [List.getElem?_append_left (List.getElem?_eq_some_iff.mp hop).1]
    · intro i op hop
      rw [Nat.add_assoc]
      refine h _ op ?_
      rwa [List.getElem?_append_right (Nat.le_add_right ..), Nat.add_sub_cancel_left]
  · rintro ⟨h, h'⟩ i op hop
    by_cases hi : i < ops.length
    · rw [List.getElem?_append_left hi] at hop
      exact h i op hop
    · rw [List.getElem?_append_right (Nat.le_of_not_lt hi)] at hop
      have hrest := h' _ op hop
      rwa [show p + ops.length + (i - ops.length) = p + i by omega] at hrest

@[simp] theorem located_cons :
    Located lines p (op :: ops) ↔ lines[p]? = some op ∧ Located lines (p + 1) ops := by
  rw [← List.singleton_append, located_append]
  refine and_congr ⟨fun h => h 0 op rfl, fun h i op' hop => ?_⟩ Iff.rfl
  cases i with
  | zero =>
    cases hop
    exact h
  | succ i => simp at hop

theorem located_self : Located ops 0 ops := by
  intro i op hop
  rwa [Nat.zero_add]

end Located

end Machine
end Nwscript
