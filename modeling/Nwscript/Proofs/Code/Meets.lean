import Mathlib
import Nwscript.Code.Program

/-! # Runs of code generation

A run of code generation meets a postcondition if it ends in a state that has it, or stops because a
depth or an offset leaves the range of 32-bit numbers. One equivalence for each step turns a run into
the condition for its first state. -/

namespace Nwscript

/-- A depth or an offset that 32 bits can hold. -/
def Fits (bytes : Int) : Prop := -2 ^ 31 ≤ bytes ∧ bytes < 2 ^ 31

theorem Fits.toInt_ofInt {bytes : Int} (h : Fits bytes) : (Int32.ofInt bytes).toInt = bytes := by
  obtain ⟨hlo, hhi⟩ := h
  rw [Int32.toInt_ofInt, Int.bmod_eq_of_le]
  · exact hlo
  · exact hhi

namespace GenState

def reach (s : GenState) (label : Label) : GenState :=
  match s.labelDepths.lookup label with
  | some _ => s
  | none => { s with labelDepths := (label, s.depth) :: s.labelDepths }

variable (s : GenState) (label : Label)

theorem reach_eq : s.reach label = { s with labelDepths := (s.reach label).labelDepths } := by
  unfold reach
  split <;> rfl

@[simp] theorem reach_nextLabel : (s.reach label).nextLabel = s.nextLabel := by rw [reach_eq]
@[simp] theorem reach_funcLabels : (s.reach label).funcLabels = s.funcLabels := by rw [reach_eq]
@[simp] theorem reach_depth : (s.reach label).depth = s.depth := by rw [reach_eq]
@[simp] theorem reach_locals : (s.reach label).locals = s.locals := by rw [reach_eq]

theorem lookup_reach_ne {other : Label} (h : other ≠ label) :
    (s.reach label).labelDepths.lookup other = s.labelDepths.lookup other := by
  have hb : (other == label) = false := by simpa using h
  unfold reach
  split
  · rfl
  · simp [List.lookup, hb]

theorem lookup_reach_self (h : ∀ d, s.labelDepths.lookup label = some d → d = s.depth) :
    (s.reach label).labelDepths.lookup label = some s.depth := by
  unfold reach
  split
  · next d hd => rw [hd, h d hd]
  · exact List.lookup_cons_self

end GenState

namespace Gen

variable {α β : Type}

/-- A run ends with `Q`, or stops with a fault of which `E` holds. -/
def Ends (E : GenFault → Prop) (g : Gen α) (s : GenState) (Q : α → GenState → Prop) : Prop :=
  match g s with
  | .ok (a, s') => Q a s'
  | .error fault => E fault

/-- The faults of depths and offsets that leave the range of 32-bit numbers. -/
@[simp] def Overflows (fault : GenFault) : Prop := ∃ bytes, fault = .overflow bytes

variable {E : GenFault → Prop} {g : Gen α} {s : GenState} {Q R : α → GenState → Prop}

theorem Ends.mono (h : Ends E g s Q) (hQ : ∀ a s', Q a s' → R a s') : Ends E g s R := by
  unfold Ends at h ⊢
  split
  · next a s' heq =>
    rw [heq] at h
    exact hQ a s' h
  · next fault heq =>
    rw [heq] at h
    exact h

theorem Ends.of_ok {a : α} {s' : GenState} (h : Ends E g s Q) (hrun : g s = .ok (a, s')) : Q a s' := by
  unfold Ends at h
  rwa [hrun] at h

theorem Ends.ok_or_error (h : Ends E g s Q) :
    (∃ x s', g s = .ok (x, s') ∧ Q x s') ∨ ∃ fault, g s = .error fault ∧ E fault := by
  unfold Ends at h
  split at h
  · exact .inl ⟨_, _, ‹_›, h⟩
  · exact .inr ⟨_, ‹_›, h⟩

theorem Ends.ok_or_overflow (h : Ends Overflows g s Q) :
    (∃ x s', g s = .ok (x, s') ∧ Q x s') ∨ ∃ bytes, g s = .error (.overflow bytes) := by
  rcases h.ok_or_error with h | ⟨_, herror, bytes, rfl⟩
  · exact .inl h
  · exact .inr ⟨bytes, herror⟩

/-! ## Steps -/

@[simp] theorem ends_pure (a : α) : Ends E (pure a) s Q ↔ Q a s := Iff.rfl

@[simp] theorem ends_bind {k : α → Gen β} {Q : β → GenState → Prop} :
    Ends E (g >>= k) s Q ↔ Ends E g s fun a s' => Ends E (k a) s' Q := by
  have hbind : (g >>= k) s = (g s).bind fun p => k p.1 p.2 := rfl
  unfold Ends
  rw [hbind]
  cases g s with
  | ok p => exact Iff.rfl
  | error fault => exact Iff.rfl

@[simp] theorem ends_map {f : α → β} {Q : β → GenState → Prop} :
    Ends E (f <$> g) s Q ↔ Ends E g s fun a s' => Q (f a) s' := by
  rw [← bind_pure_comp]
  exact ends_bind

@[simp] theorem ends_get {Q : GenState → GenState → Prop} : Ends E get s Q ↔ Q s s := Iff.rfl

@[simp] theorem ends_set {s' : GenState} {Q : PUnit → GenState → Prop} :
    Ends E (set s') s Q ↔ Q ⟨⟩ s' := Iff.rfl

@[simp] theorem ends_modify {f : GenState → GenState} {Q : PUnit → GenState → Prop} :
    Ends E (modify f) s Q ↔ Q ⟨⟩ (f s) := Iff.rfl

@[simp] theorem ends_throw {fault : GenFault} : Ends E (throw fault) s Q ↔ E fault := Iff.rfl

@[simp] theorem ends_newLabel {Q : Label → GenState → Prop} :
    Ends E newLabel s Q ↔ Q s.nextLabel { s with nextLabel := s.nextLabel + 1 } := Iff.rfl

@[simp] theorem ends_depth {Q : Int → GenState → Prop} : Ends E depth s Q ↔ Q s.depth s := Iff.rfl

@[simp] theorem ends_setDepth {d : Int} {Q : Unit → GenState → Prop} :
    Ends E (setDepth d) s Q ↔ Q () { s with depth := d } := Iff.rfl

@[simp] theorem meets_fit {bytes : Int} {Q : Int → GenState → Prop} :
    Ends Overflows (fit bytes) s Q ↔ (Fits bytes → Q bytes s) := by
  unfold fit
  split
  · next h => exact ⟨fun hQ _ => hQ, fun hQ => hQ h⟩
  · next h => exact ⟨fun _ hfits => absurd hfits h, fun _ => ⟨bytes, rfl⟩⟩

@[simp] theorem meets_addDepth {effect : Int} {Q : Unit → GenState → Prop} :
    Ends Overflows (addDepth effect) s Q ↔
      (Fits (s.depth + effect) → Q () { s with depth := s.depth + effect }) := by
  simp [addDepth]

@[simp] theorem meets_emit {i : Instr} {Q : List Op → GenState → Prop} :
    Ends Overflows (emit i) s Q ↔ (Fits (s.depth + i.effect?.getD 0) →
      Q [.instr i] { s with depth := s.depth + i.effect?.getD 0 }) := by
  simp [emit]

@[simp] theorem meets_label {label : Label} {Q : Unit → GenState → Prop} : Ends Overflows (Gen.bind label) s Q ↔
      (∀ d, s.labelDepths.lookup label = some d → d = s.depth) ∧ Q () (s.reach label) := by
  simp only [Gen.bind, ends_bind, ends_get]
  cases hl : s.labelDepths.lookup label with
  | none =>
    have hreach : s.reach label = { s with labelDepths := (label, s.depth) :: s.labelDepths } := by
      rw [GenState.reach, hl]
    simp [hreach]
  | some d =>
    have hreach : s.reach label = s := by rw [GenState.reach, hl]
    rw [hreach]
    dsimp only
    split
    · next heq => simp [heq]
    · next hne => simp [hne]

@[simp] theorem meets_jump {kind : JumpKind} {label : Label} {Q : List Op → GenState → Prop} :
    Ends Overflows (jump kind label) s Q ↔ (Fits (s.depth + (Op.jump kind label).effect?.getD 0) →
        (∀ d, s.labelDepths.lookup label = some d → d = s.depth + (Op.jump kind label).effect?.getD 0) ∧
        Q [.jump kind label] (GenState.reach
          { s with depth := s.depth + (Op.jump kind label).effect?.getD 0 } label)) := by
  simp [jump]

@[simp] theorem meets_emitCall {op : Op} {effect : Int} {Q : List Op → GenState → Prop} :
    Ends Overflows (emitCall op effect) s Q ↔
      (Fits (s.depth + effect) → Q [op] { s with depth := s.depth + effect }) := by
  simp [emitCall]

@[simp] theorem meets_mark {label : Label} {Q : List Op → GenState → Prop} :
    Ends Overflows (mark label) s Q ↔ (∀ d, s.labelDepths.lookup label = some d → d = s.depth) ∧
      Q [.mark label] (s.reach label) := by
  simp [mark]

@[simp] theorem meets_checkDepth {expected : Int} {routine : String} {Q : Unit → GenState → Prop} :
    Ends Overflows (checkDepth expected routine) s Q ↔ s.depth = expected ∧ Q () s := by
  simp only [checkDepth, ends_bind, ends_depth]
  split
  · next h => simp [h]
  · next h => simp [h]

@[simp] theorem meets_moveSp {offset : Int} {Q : List Op → GenState → Prop} :
    Ends Overflows (moveSp offset) s Q ↔ (Fits offset → Fits (s.depth + offset) →
      Q [.instr (.moveSp (.ofInt offset))] { s with depth := s.depth + offset }) := by
  simp only [moveSp, ends_bind, meets_fit, meets_emit, Instr.effect?_moveSp, Option.getD_some]
  constructor
  · intro h hfits
    simpa [hfits.toInt_ofInt] using h hfits
  · intro h hfits
    simpa [hfits.toInt_ofInt] using h hfits

def popOps (depth target : Int) : List Op :=
  if depth = target then [] else [.instr (.moveSp (.ofInt (target - depth)))]

def PopFits (depth target : Int) : Prop := depth ≠ target → Fits (target - depth) ∧ Fits target

@[simp] theorem meets_popTo {target : Int} {Q : List Op → GenState → Prop} :
    Ends Overflows (popTo target) s Q ↔ target ≤ s.depth ∧
      (PopFits s.depth target → Q (popOps s.depth target) { s with depth := target }) := by
  simp only [popTo, ends_bind, ends_depth]
  rcases Int.lt_trichotomy s.depth target with hlt | heq | hgt
  · rw [if_neg (by omega), if_neg (by omega), ends_throw]
    constructor
    · rintro ⟨_, ⟨⟩⟩
    · intro h
      omega
  · rw [if_pos (by omega), ends_pure, popOps, if_pos heq, ← heq]
    simp [PopFits]
  · have hneg : -(s.depth - target) = target - s.depth := by omega
    have hsum : s.depth + (target - s.depth) = target := by omega
    have hne : s.depth ≠ target := by omega
    rw [if_neg (by omega), if_pos (by omega), meets_moveSp, hneg, hsum, popOps, if_neg hne]
    simp [PopFits, hne, Int.le_of_lt hgt]

/-! ## Variables -/

def slotOf (c : GenContext) (locals : List (VarId × Int)) (var : VarId) : Option Slot :=
  ((locals.lookup var).map Slot.stack).or ((c.globals.offsets.lookup var).map Slot.global)

/-- The distance of a part of a slot from the pointer it is addressed by. -/
def distance (c : GenContext) (depth offset : Int) : Slot → Int
  | .stack bottom => bottom + offset - depth
  | .global start => start + offset - c.globals.size

def baseOf : Slot → Base
  | .stack _ => .stack
  | .global _ => .globals

theorem meets_address {c : GenContext} {var : VarId} {offset : Int} {slot : Slot}
    (h : slotOf c s.locals var = some slot) {Q : Base × Int32 → GenState → Prop} :
    Ends Overflows (address c var offset) s Q ↔ (Fits (distance c s.depth offset slot) →
      Q (baseOf slot, .ofInt (distance c s.depth offset slot)) s) := by
  simp only [address, Gen.slot, ends_bind, ends_get]
  cases hl : s.locals.lookup var with
  | some bottom =>
    rw [slotOf, hl] at h
    cases h
    simp [distance, baseOf]
  | none =>
    cases hg : c.globals.offsets.lookup var with
    | some start =>
      rw [slotOf, hl, hg] at h
      cases h
      simp [distance, baseOf]
    | none => simp [slotOf, hl, hg] at h

end Gen
end Nwscript
