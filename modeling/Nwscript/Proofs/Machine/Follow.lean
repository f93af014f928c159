import Nwscript.Proofs.Code.Flow
import Nwscript.Proofs.Code.Typed
import Nwscript.Proofs.Machine.Basic
import Nwscript.Proofs.Meaning.Expr

/-! # Runs that follow an execution

What one line of code does, and what it means that the machine follows an execution: it reaches the
state that shows the result, gets stuck where an operator has no result, and runs on for as long as the
execution is allowed to. The stack is described by a picture, which tells the cells of variables from
the others. -/

open List Option

namespace Nwscript
namespace Machine

open Gen Meaning

/-! ## One line -/

section Line

variable {lines : List Op} {p : Nat} {st st' : List Constant} {back : List Nat} {label : Label}

theorem runs_mark (h : lines[p]? = some (.mark label)) :
    Runs lines 1 ⟨p, st, back⟩ ⟨p + 1, st, back⟩ := by
  apply Runs.one
  simp [step, h]

theorem runs_instr {i : Instr} (h : lines[p]? = some (.instr i)) (hi : i ≠ .ret)
    (happly : apply st i = some st') : Runs lines 1 ⟨p, st, back⟩ ⟨p + 1, st', back⟩ := by
  apply Runs.one
  cases i with
  | ret => exact absurd rfl hi
  | _ => simp [step, h, happly]

theorem runs_jump (st : List Constant) (back : List Nat) (h : lines[p]? = some (.jump .always label)) :
    Runs lines 1 ⟨p, st, back⟩ ⟨place lines label, st, back⟩ := by
  apply Runs.one
  simp [step, h]

theorem runs_call (h : lines[p]? = some (.jump .call label)) :
    Runs lines 1 ⟨p, st, back⟩ ⟨place lines label, st, (p + 1) :: back⟩ := by
  apply Runs.one
  simp [step, h]

theorem runs_ifZero (st : List Constant) (back : List Nat)
    (h : lines[p]? = some (.jump .ifZero label)) (n : Int32) :
    Runs lines 1 ⟨p, .int n :: st, back⟩ ⟨if n = 0 then place lines label else p + 1, st, back⟩ := by
  apply Runs.one
  simp [step, h, branch?]

theorem runs_ifNonzero (st : List Constant) (back : List Nat)
    (h : lines[p]? = some (.jump .ifNonzero label)) (n : Int32) :
    Runs lines 1 ⟨p, .int n :: st, back⟩ ⟨if n = 0 then p + 1 else place lines label, st, back⟩ := by
  apply Runs.one
  by_cases hn : n = 0
  · simp [step, h, branch?, hn]
  · simp [step, h, branch?, hn]

theorem Stuck.stopped {s : State} (h : Stuck lines s) : step lines s = none := by
  obtain ⟨i, hline, hi, happly⟩ := h
  cases i with
  | ret => exact absurd rfl hi
  | _ => simp [step, hline, happly]

theorem place_eq (hnodup : (marks lines).Nodup) (h : lines[p]? = some (.mark label)) :
    place lines label = p := by
  unfold place
  induction lines generalizing p with
  | nil => simp at h
  | cons op ops ih =>
    cases p with
    | zero =>
      obtain rfl : op = .mark label := by simpa using h
      simp
    | succ p =>
      have hmem : label ∈ marks ops := mem_marks.mpr (mem_of_getElem? h)
      have hne : op ≠ .mark label := by
        rintro rfl
        rw [marks_mark, nodup_cons] at hnodup
        exact hnodup.1 hmem
      have hrest : (marks ops).Nodup := by
        cases op with
        | mark other => exact (nodup_cons.mp hnodup).2
        | _ => exact hnodup
      rw [idxOf_cons_ne _ hne, ih hrest h]

end Line

/-! ## Instructions on cells -/

section Apply

variable {st rest : List Constant} {offset : Int} {n i : Nat}

theorem cellsTo?_ofInt (hfits : Fits offset) (h : offset = -(cellSize * n)) :
    cellsTo? (.ofInt offset) = some n := by
  have hcells : offset ≤ 0 ∧ offset % cellSize = 0 ∧ (-offset / cellSize).toNat = n := by
    simp only [cellSize] at h ⊢
    omega
  unfold cellsTo?
  rw [hfits.toInt_ofInt, if_pos ⟨hcells.1, hcells.2.1⟩, hcells.2.2]

theorem cellCount?_ofInt {size : Int} (h : IsOperand size) (hn : size = cellSize * n) :
    cellCount? (.ofInt size) = some n := by
  have hnat := h.toNat_ofInt
  simp only [cellSize] at hn
  unfold cellCount?
  rw [if_pos (by omega)]
  congr 1
  omega

theorem cellCount?_cell : cellCount? (.ofInt cellSize) = some 1 := rfl

theorem apply_copyTop {c : Constant} (hfits : Fits offset) (h : offset = -(cellSize * (i + 1 : Nat)))
    (hi : st[i]? = some c) :
    apply st (.copyTop .stack (.ofInt offset) (.ofInt cellSize)) = some (c :: st) := by
  obtain ⟨hlt, hget⟩ := List.getElem?_eq_some_iff.mp hi
  have htake : (st.drop i).take 1 = [c] := by
    rw [drop_eq_getElem_cons hlt, hget]
    rfl
  rw [apply_copyTop_eq, cellsTo?_ofInt hfits h, cellCount?_cell]
  simp only [bind_some, copyTop?]
  rw [if_pos (by omega), Nat.add_sub_cancel, htake]
  rfl

theorem apply_dup {c : Constant} :
    apply (c :: rest) (.copyTop .stack (.ofInt (-cellSize)) (.ofInt cellSize)) =
      some (c :: c :: rest) :=
  apply_copyTop (i := 0) ⟨by decide, by decide⟩ (by decide) rfl

theorem apply_copyDown {c : Constant} (hfits : Fits offset)
    (h : offset = -(cellSize * (i + 1 : Nat))) (hi : i < (c :: rest).length) :
    apply (c :: rest) (.copyDown .stack (.ofInt offset) (.ofInt cellSize)) =
      some ((c :: rest).set i c) := by
  rw [apply_copyDown_eq, cellsTo?_ofInt hfits h, cellCount?_cell]
  simp only [bind_some, copyDown?]
  rw [if_pos (by omega), Nat.add_sub_cancel, set_eq_take_append_cons_drop, if_pos hi]
  simp

theorem apply_step {s : Step} {m : Int32} (hfits : Fits offset)
    (h : offset = -(cellSize * (i + 1 : Nat))) (hi : st[i]? = some (.int m)) :
    apply st (.step s .stack (.ofInt offset)) = some (st.set i (.int (stepped s m))) := by
  rw [apply_step_eq, cellsTo?_ofInt hfits h]
  simp only [bind_some, step?, Nat.add_sub_cancel, hi]
  rw [if_pos (by omega)]

end Apply

/-! ## Several lines -/

section Lines

variable {lines : List Op} {p n : Nat} {st : List Constant} {back : List Nat}

theorem Reaches.refl (s : State) : Reaches lines s s := ⟨0, rfl⟩

theorem Reaches.trans {s t u : State} (h : Reaches lines s t) (h' : Reaches lines t u) :
    Reaches lines s u := by
  obtain ⟨n, h⟩ := h
  obtain ⟨m, h'⟩ := h'
  exact ⟨n + m, h.trans h'⟩

theorem Runs.reaches {s t : State} (h : Runs lines n s t) : Reaches lines s t := ⟨n, h⟩

theorem reaches_constantOps (st : List Constant) (back : List Nat) (v : Value)
    (h : Located lines p (constantOps v)) :
    Reaches lines ⟨p, st, back⟩ ⟨p + (constantOps v).length, v.cells ++ st, back⟩ := by
  cases v with
  | vector x y z =>
    simp only [constantOps, located_cons] at h
    obtain ⟨hx, hy, hz, -⟩ := h
    have hfirst : Runs lines 1 ⟨p, st, back⟩ ⟨p + 1, .float x :: st, back⟩ :=
      runs_instr hx (by simp) (apply_const _)
    have hsecond : Runs lines 1 ⟨p + 1, .float x :: st, back⟩
        ⟨p + 1 + 1, .float y :: .float x :: st, back⟩ := runs_instr hy (by simp) (apply_const _)
    exact (hfirst.trans (hsecond.trans (runs_instr hz (by simp) (apply_const _)))).reaches
  | _ =>
    simp only [constantOps, located_cons] at h
    exact (runs_instr h.1 (by simp) rfl).reaches

end Lines

/-! ## Following an execution -/

/-- The machine follows an execution from a state: it reaches the state that shows the result, it gets
stuck, or it runs on for at least `k` steps. -/
def Follows {α : Type} (lines : List Op) (k : Nat) (s : State) (target : α → State) : Outcome α → Prop
  | .done v => Reaches lines s (target v)
  | .fault _ => ∃ t, Reaches lines s t ∧ Stuck lines t
  | .timeout => ∃ n t, k ≤ n ∧ Runs lines n s t

section Follows

variable {α β : Type} {lines : List Op} {k k' : Nat} {s s' : State} {target : α → State}
  {target' : β → State} {o : Outcome α}

theorem Follows.mono (h : Follows lines k s target o) (hle : k' ≤ k) : Follows lines k' s target o := by
  cases o with
  | done v => exact h
  | fault reason => exact h
  | timeout =>
    obtain ⟨n, t, hn, hrun⟩ := h
    exact ⟨n, t, Nat.le_trans hle hn, hrun⟩

theorem Follows.after {n : Nat} (hrun : Runs lines n s s') (h : Follows lines k s' target o) :
    Follows lines (n + k) s target o := by
  cases o with
  | done v => exact hrun.reaches.trans h
  | fault reason =>
    obtain ⟨t, ht, hstuck⟩ := h
    exact ⟨t, hrun.reaches.trans ht, hstuck⟩
  | timeout =>
    obtain ⟨m, t, hm, ht⟩ := h
    exact ⟨n + m, t, by omega, hrun.trans ht⟩

theorem Follows.from (hrun : Reaches lines s s') (h : Follows lines k s' target o) :
    Follows lines k s target o := by
  obtain ⟨n, hrun⟩ := hrun
  exact (h.after hrun).mono (by omega)

theorem Follows.bind {m : α → Outcome β} (h : Follows lines k s target o)
    (hm : ∀ v, o = .done v → Follows lines k (target v) target' (m v)) :
    Follows lines k s target' (o.bind m) := by
  cases o with
  | done v => exact (hm v rfl).from h
  | fault reason => exact h
  | timeout => exact h

theorem Follows.to {target' : α → State} (h : Follows lines k s target o)
    (hto : ∀ v, o = .done v → Reaches lines (target v) (target' v)) : Follows lines k s target' o := by
  cases o with
  | done v => exact Reaches.trans h (hto v rfl)
  | fault reason => exact h
  | timeout => exact h

end Follows

/-! ## Pictures of the stack -/

/-- A cell of a variable, or one that holds something else. -/
inductive Cell where
  | var (x : VarId)
  | held (c : Constant)

def Cell.read (σ : Store) : Cell → Constant
  | var x => .int (σ x)
  | held c => c

def stackOf (F : List Cell) (σ : Store) : List Constant := F.map (Cell.read σ)

section Picture

variable {F G : List Cell} {σ : Store}

@[simp] theorem stackOf_nil : stackOf [] σ = [] := rfl

@[simp] theorem stackOf_cons (c : Cell) : stackOf (c :: F) σ = c.read σ :: stackOf F σ := rfl

@[simp] theorem stackOf_append : stackOf (F ++ G) σ = stackOf F σ ++ stackOf G σ := map_append

@[simp] theorem stackOf_held (cs : List Constant) : stackOf (cs.map .held) σ = cs := by
  simp [stackOf, Cell.read, Function.comp_def]

@[simp] theorem length_stackOf : (stackOf F σ).length = F.length := length_map ..

theorem getElem?_stackOf {i : Nat} {c : Cell} (h : F[i]? = some c) :
    (stackOf F σ)[i]? = some (c.read σ) := by
  rw [stackOf, getElem?_map, h]
  rfl

theorem stackOf_set (σ : Store) {i : Nat} {var : VarId} (hi : F[i]? = some (.var var))
    (honce : ∀ j : Nat, F[j]? = some (.var var) → j = i) (n : Int32) :
    stackOf F (σ.set var n) = (stackOf F σ).set i (.int n) := by
  apply ext_getElem?
  intro j
  rw [stackOf, getElem?_map, getElem?_set, length_stackOf, stackOf, getElem?_map]
  have hlt : i < F.length := (List.getElem?_eq_some_iff.mp hi).1
  by_cases hij : i = j
  · subst hij
    rw [hi, if_pos rfl, if_pos hlt]
    simp [Cell.read, Store.set]
  · rw [if_neg hij]
    cases hj : F[j]? with
    | none => rfl
    | some c =>
      cases c with
      | held c => rfl
      | var x =>
        have hne : x ≠ var := by
          rintro rfl
          exact hij (honce j hj).symm
        simp [Cell.read, Store.set, hne]

end Picture

/-- A picture shows the visible variables where code generation takes them to be, each once. -/
structure Shows (a : Analysis) (visible : List VarId) (locals : List (VarId × Int)) (d : Int)
    (F : List Cell) : Prop where
  place : ∀ var ∈ visible, ∃ (bottom : Int) (i : Nat), locals.lookup var = some bottom ∧
    F[i]? = some (.var var) ∧ bottom - d = -(cellSize * (i + 1 : Nat))
  once : ∀ (i j : Nat) var, F[i]? = some (.var var) → F[j]? = some (.var var) → i = j
  kind : ∀ var bottom info, locals.lookup var = some bottom → a.vars[var]? = some info →
    info.kind ≠ .global

section Shows

variable {a : Analysis} {visible : List VarId} {locals locals' : List (VarId × Int)} {d d' : Int}
  {F : List Cell}

theorem Shows.push (h : Shows a visible locals d F) (cs : List Constant)
    (hd : d' = d + cellSize * cs.length) : Shows a visible locals d' (cs.map .held ++ F) := by
  refine ⟨fun var hvar => ?_, fun i j var hi hj => ?_, h.kind⟩
  · obtain ⟨bottom, i, hl, hi, hoff⟩ := h.place var hvar
    refine ⟨bottom, cs.length + i, hl, ?_, ?_⟩
    · rw [getElem?_append_right (by simp), length_map, Nat.add_sub_cancel_left, hi]
    · simp only [cellSize] at hd hoff ⊢
      omega
  · have hvar : ∀ i, (cs.map Cell.held ++ F)[i]? = some (.var var) →
        cs.length ≤ i ∧ F[i - cs.length]? = some (.var var) := by
      intro i hi
      by_cases hlt : i < cs.length
      · rw [getElem?_append_left (by simpa using hlt), getElem?_map] at hi
        obtain ⟨c, -, hc⟩ := map_eq_some_iff.mp hi
        cases hc
      · rw [getElem?_append_right (by simpa using hlt), length_map] at hi
        exact ⟨by omega, hi⟩
    obtain ⟨hle, hi⟩ := hvar i hi
    obtain ⟨hle', hj⟩ := hvar j hj
    have := h.once _ _ _ hi hj
    omega

theorem Shows.placed {c : GenContext} (h : Shows c.analysis visible locals d F)
    (hlocals : LocalInts c.analysis visible) : Placed c visible locals := by
  intro var hvar
  obtain ⟨bottom, i, hl, -, -⟩ := h.place var hvar
  obtain ⟨info, hinfo, -, hint⟩ := hlocals var hvar
  refine ⟨info, bottom, hinfo, ?_, hl⟩
  rw [hint]
  exact ⟨rfl, trivial, by simp⟩

theorem Shows.slot {c : GenContext} (h : Shows c.analysis visible locals d F) {var : VarId}
    (hvar : var ∈ visible) {slot : Slot} (haddr : Addresses c locals d var 0 slot) :
    ∃ (bottom : Int) (i : Nat), slot = .stack bottom ∧ F[i]? = some (.var var) ∧
      Fits (bottom + 0 - d) ∧ bottom + 0 - d = -(cellSize * (i + 1 : Nat)) := by
  obtain ⟨bottom, i, hl, hi, hoff⟩ := h.place var hvar
  have hslot := haddr.found
  rw [slotOf, hl] at hslot
  cases hslot
  exact ⟨bottom, i, rfl, hi, haddr.fits, by omega⟩

end Shows

end Machine
end Nwscript
