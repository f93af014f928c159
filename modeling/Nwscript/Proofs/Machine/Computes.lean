import Nwscript.Proofs.Machine.Follow

/-! # Lines that compute

What it means that lines of code run as an execution does: they write to the variables that the
execution writes to, leave everything else on the stack as it was, and push the cells of the result.
Lines that follow each other compute one execution after the other, and so do the lines of operators,
variables and choices. -/

open List
open Option hiding bind_apply

namespace Nwscript
namespace Machine

open Gen Meaning

def pushed : Option Value → List Constant
  | some v => v.cells
  | none => []

/-- Where code is run: the lines, the steps that a run takes at least if the execution is not allowed
to end, and the variables with their slots. -/
structure Site where
  lines : List Op
  k : Nat
  ctx : GenContext
  visible : List VarId
  locals : List (VarId × Int)

/-- The lines run as an execution does. They find the cells `top` on top of the variables, whose depth
is `d`, and replace them by the cells of the result. -/
def Site.Computes {α : Type} (S : Site) (d : Int) (top : List Constant) (ops : List Op) (x : Eval α)
    (cells : α → List Constant) : Prop :=
  ∀ p back σ F, Located S.lines p ops → Shows S.ctx.analysis S.visible S.locals d F →
    ConstsHold S.ctx.analysis S.visible σ →
    Follows S.lines S.k ⟨p, top ++ stackOf F σ, back⟩
      (fun r => ⟨p + ops.length, cells r.1 ++ stackOf F r.2, back⟩) (x σ)

/-- An execution has a result that passes a test, and leaves the constants as they are. -/
def Site.Gives {α : Type} (S : Site) (x : Eval α) (Q : α → Prop) : Prop :=
  Ensures (ConstsHold S.ctx.analysis S.visible) x fun v σ => Q v ∧ ConstsHold S.ctx.analysis S.visible σ

section Computes

variable {S : Site} {d : Int} {top : List Constant} {ops ops' : List Op}

variable {α : Type} {i : Instr} {a : Analysis} {op : BinOp} {type : Ty} {var : VarId} {slot : Slot}
  {p : Nat}

theorem Site.Computes.seq {β : Type} {x : Eval α} {y : α → Eval β} {Q : α → Prop}
    {cells : α → List Constant} {cells' : β → List Constant} (hx : S.Computes d top ops x cells)
    (hgives : S.Gives x Q) (hy : ∀ v, Q v → S.Computes d (cells v) ops' (y v) cells') :
    S.Computes d top (ops ++ ops') (x >>= y) cells' := by
  intro p back σ F hloc hshows hσ
  rw [located_append] at hloc
  rw [bind_apply, length_append, ← Nat.add_assoc]
  apply (hx p back σ F hloc.1 hshows hσ).bind
  intro r hr
  obtain ⟨hq, hσ'⟩ := hgives σ hσ r.1 r.2 hr
  exact hy r.1 hq (p + ops.length) back r.2 F hloc.2 hshows hσ'

theorem Site.Computes.under {x : Eval α} {cells : α → List Constant} {d' : Int}
    (h : S.Computes d' [] ops x cells) (top : List Constant) (hd : d' = d + cellSize * top.length) :
    S.Computes d top ops x (fun v => cells v ++ top) := by
  intro p back σ F hloc hshows hσ
  have hrun := h p back σ _ hloc (hshows.push top hd) hσ
  simpa using hrun

theorem Site.Computes.last {β : Type} {x : Eval α} {y : α → Eval β} {Q : α → Prop}
    {cells : α → List Constant} {cells' : β → List Constant} (hx : S.Computes d top ops x cells)
    (hgives : S.Gives x Q) (hy : ∀ v, Q v → S.Computes d (cells v) [] (y v) cells') :
    S.Computes d top ops (x >>= y) cells' := by
  have hseq := hx.seq hgives hy
  rwa [append_nil] at hseq

theorem computes_pure (v : α) {cells : α → List Constant} :
    S.Computes d (cells v) [] (pure v) cells := by
  intro p back σ F _ _ _
  exact Reaches.refl _

/-! ## Operators -/

theorem computes_ofFold {r : Except FoldFault Value} (hi : i ≠ .ret)
    (happly : ∀ st, apply (top ++ st) i = r.toOption.map fun v => v.cells ++ st) :
    S.Computes d top [.instr i] (Eval.ofFold r) pushed := by
  intro p back σ F hloc _ _
  rw [located_cons] at hloc
  have hstep := happly (stackOf F σ)
  cases r with
  | ok v => exact (runs_instr hloc.1 hi hstep).reaches
  | error reason => exact ⟨_, .refl _, i, hloc.1, hi, hstep⟩

theorem apply_binaryInstr {x y : Value} (h : binaryInstr? a op x.type y.type = some i)
    (st : List Constant) : i ≠ .ret ∧ apply (y.cells ++ x.cells ++ st) i =
      (foldBinary op x y).toOption.map fun v => v.cells ++ st := by
  unfold binaryInstr? at h
  split at h
  · next hbytes =>
    cases h
    refine ⟨by simp, ?_⟩
    cases x with
    | vector a₁ b₁ c₁ =>
      cases y with
      | vector a₂ b₂ c₂ =>
        have hop : op = .eq ∨ op = .ne := by simpa [comparesBytes, Value.type] using hbytes
        have hcount : cellCount? (.ofInt (a.sizeOf .vector)) = some 3 := by
          show cellCount? (.ofInt (3 * cellSize)) = some 3
          exact cellCount?_ofInt ⟨by decide, by decide⟩ (by decide)
        have hadd : op ≠ .add := by rcases hop with rfl | rfl <;> simp
        have hsub : op ≠ .sub := by rcases hop with rfl | rfl <;> simp
        rw [apply_compare_eq, binOp?_ofBinOp, bind_some, show Value.type _ = Ty.vector from rfl,
          hcount, foldBinary, if_neg hadd, if_neg hsub]
        have hsame : (a₁.eq a₂ && b₁.eq b₂ && c₁.eq c₂) = (c₁.eq c₂ && (b₁.eq b₂ && a₁.eq a₂)) := by
          cases a₁.eq a₂ <;> cases b₁.eq b₂ <;> cases c₁.eq c₂ <;> rfl
        rw [hsame]
        simp [compare?, Value.cells, sameCell]
      | _ => simp [comparesBytes, Value.type] at hbytes
    | _ => cases y <;> simp [comparesBytes, Value.type] at hbytes
  · obtain ⟨pair, hpair, rfl⟩ := map_eq_some_iff.mp h
    refine ⟨by simp, ?_⟩
    rw [apply_binary_eq, lookup_pairs hpair, binOp?_ofBinOp, bind_some, bind_some]
    unfold binary?
    rw [append_assoc, pop?_cells]
    simp only [bind_eq_bind, bind_some, pop?_cells]
    cases foldBinary op x y <;> rfl

theorem computes_binary {x y : Option Value} {left right : Ty} (hx : HasType x left)
    (hy : HasType y right) (hi : binaryInstr? a op left right = some i) :
    S.Computes d (pushed y ++ pushed x) [Op.instr i] (Eval.binary op x y) pushed := by
  have hne : ∀ type, HasType none type → ∀ other, PairByte.ofTypes? type other = none ∧
      PairByte.ofTypes? other type = none ∧ comparesBytes op type other = false ∧
      comparesBytes op other type = false := by
    rintro _ rfl other
    cases other <;> exact ⟨rfl, rfl, rfl, rfl⟩
  cases x with
  | none =>
    obtain ⟨hpair, -, hbytes, -⟩ := hne left hx right
    simp [binaryInstr?, hpair, hbytes] at hi
  | some x =>
    cases y with
    | none =>
      obtain ⟨-, hpair, -, hbytes⟩ := hne right hy left
      simp [binaryInstr?, hpair, hbytes] at hi
    | some y =>
      obtain rfl : x.type = left := hx
      obtain rfl : y.type = right := hy
      apply computes_ofFold (apply_binaryInstr hi []).1
      exact fun st => (apply_binaryInstr hi st).2

theorem apply_unaryInstr (op : UnOp) (x : Value) (st : List Constant) :
    apply (x.cells ++ st) (unaryInstr op x.type) =
      (foldUnary op x).toOption.map fun v => v.cells ++ st := by
  cases op <;> cases x <;> rfl

theorem computes_unary {op : UnOp} {x : Option Value} (hx : HasType x type)
    (happlies : unaryApplies op type = true) :
    S.Computes d (pushed x) [.instr (unaryInstr op type)] (Eval.unary op x) pushed := by
  cases x with
  | none =>
    obtain rfl : type = .void := hx
    cases op <;> cases happlies
  | some x =>
    obtain rfl : x.type = type := hx
    apply computes_ofFold
    · cases op <;> simp [unaryInstr]
    · exact apply_unaryInstr op x

/-! ## Variables -/

theorem load_apply (hlocals : LocalInts S.ctx.analysis S.visible) (hvar : var ∈ S.visible)
    (σ : Store) : Eval.load S.ctx.analysis var σ = .done (some (.int (σ var)), σ) := by
  obtain ⟨info, hinfo, hkind, -⟩ := hlocals var hvar
  simp [Eval.load, hinfo, hkind]

theorem computes_load (hlocals : LocalInts S.ctx.analysis S.visible) (hvar : var ∈ S.visible)
    (haddr : Addresses S.ctx S.locals d var 0 slot) :
    S.Computes d [] [loadOp S.ctx slot d 0 cellSize] (Eval.load S.ctx.analysis var) pushed := by
  intro p back σ F hloc hshows _
  rw [located_cons] at hloc
  obtain ⟨bottom, i, rfl, hi, hfits, hoff⟩ := hshows.slot hvar haddr
  rw [load_apply hlocals hvar]
  exact (runs_instr hloc.1 (by simp) (apply_copyTop hfits hoff (getElem?_stackOf hi))).reaches

theorem computes_store (hvar : var ∈ S.visible) {d' : Int}
    (haddr : Addresses S.ctx S.locals d' var 0 slot) (hd : d' = d + cellSize) {v : Option Value}
    (hv : HasType v .int) :
    S.Computes d (pushed v) [storeOp S.ctx slot d' 0 cellSize] (Eval.store (some var) v)
      (fun _ => pushed v) := by
  intro p back σ F hloc hshows _
  rw [located_cons] at hloc
  obtain ⟨n, rfl⟩ := hv.exists_int
  have hpush : Shows S.ctx.analysis S.visible S.locals d' _ :=
    hshows.push [.int n] (by simpa using hd)
  obtain ⟨bottom, i, rfl, hi, hfits, hoff⟩ := hpush.slot hvar haddr
  have hset := stackOf_set σ hi (fun j hj => hpush.once _ _ _ hj hi) n
  have hlt := (List.getElem?_eq_some_iff.mp hi).1
  have hrun := apply_copyDown (c := .int n) hfits hoff (show i < (_ :: stackOf F σ).length by simpa using hlt)
  have hstack : Constant.int n :: stackOf F (σ.set var n) = (Constant.int n :: stackOf F σ).set i (.int n) :=
    hset
  rw [← hstack] at hrun
  exact (runs_instr hloc.1 (by simp) hrun).reaches

theorem runs_stepOp (back : List Nat) (σ : Store) {s : Step} {F : List Cell}
    (hloc : S.lines[p]? = some (stepOp S.ctx s slot d))
    (hshows : Shows S.ctx.analysis S.visible S.locals d F) (hvar : var ∈ S.visible)
    (haddr : Addresses S.ctx S.locals d var 0 slot) : Runs S.lines 1 ⟨p, stackOf F σ, back⟩
      ⟨p + 1, stackOf F (σ.set var (stepped s (σ var))), back⟩ := by
  obtain ⟨bottom, i, rfl, hi, hfits, hoff⟩ := hshows.slot hvar haddr
  have hset := stackOf_set σ hi (fun j hj => hshows.once _ _ _ hj hi) (stepped s (σ var))
  rw [hset]
  exact runs_instr hloc (by simp) (apply_step hfits hoff (getElem?_stackOf hi))

/-! ## Choices -/

/-- Where a logical operator goes on with its right operand, and what its left operand decides. -/
theorem runs_onwardJump (hop : op = .logAnd ∨ op = .logOr) {label : Label} (st : List Constant)
    (back : List Nat) (hline : S.lines[p]? = some (.jump (onwardJump op) label)) (n : Int32) :
    (shortcut? op (some (.int n)) = none ∧
      Runs S.lines 1 ⟨p, .int n :: st, back⟩ ⟨place S.lines label, st, back⟩) ∨
    ∃ v, shortcut? op (some (.int n)) = some v ∧ foldBinary op (.int n) (.int n) = .ok v ∧
      Runs S.lines 1 ⟨p, .int n :: st, back⟩ ⟨p + 1, st, back⟩ := by
  rcases hop with rfl | rfl
  · have hrun := runs_ifNonzero st back hline n
    by_cases hn : n = 0
    · subst hn
      exact .inr ⟨.int 0, rfl, rfl, hrun⟩
    · rw [if_neg hn] at hrun
      exact .inl ⟨by simp [shortcut?, hn], hrun⟩
  · have hrun := runs_ifZero st back hline n
    by_cases hn : n = 0
    · rw [if_pos hn] at hrun
      exact .inl ⟨by simp [shortcut?, hn], hrun⟩
    · rw [if_neg hn] at hrun
      refine .inr ⟨.int 1, by simp [shortcut?, hn], ?_, hrun⟩
      simp [foldBinary, foldInt, Value.truth, hn]

theorem computes_shortCircuit (hnodup : (marks S.lines).Nodup) (hop : op = .logAnd ∨ op = .logOr)
    {left right : List Op} (onward join : Label) {x y : Eval (Option Value)}
    (hx : S.Computes d [] left x pushed) (hxint : S.Gives x fun v => HasType v .int)
    (hy : S.Computes (d + cellSize) [] right y pushed) (hyint : S.Gives y fun v => HasType v .int) :
    S.Computes d []
      (left ++ [dupOp] ++ [Op.jump (onwardJump op) onward] ++ [dupOp] ++ [Op.jump .always join] ++
        [Op.mark onward] ++ right ++ [Op.mark join] ++
        [Op.instr (.binary (Opcode.ofBinOp op) PairByte.intInt)])
      (do
        let u ← x
        Eval.unlessDecided (do Eval.binary op u (← y)) (shortcut? op u)) pushed := by
  intro p back σ F hloc hshows hσ
  simp only [located_append, located_cons, located_nil, and_true, length_append,
    length_singleton, ← Nat.add_assoc] at hloc ⊢
  obtain ⟨⟨⟨⟨⟨⟨⟨⟨hleft, hdup⟩, hbranch⟩, hagain⟩, hskip⟩, honward⟩, hright⟩, hjoin⟩, hcombine⟩ := hloc
  have hplace := place_eq hnodup honward
  have hplace' := place_eq hnodup hjoin
  rw [bind_apply]
  apply (hx p back σ F hleft hshows hσ).bind
  rintro ⟨u, σ₁⟩ hu
  obtain ⟨hint, hσ₁⟩ := hxint σ hσ u σ₁ hu
  obtain ⟨n, rfl⟩ := hint.exists_int
  generalize p + left.length = q at *
  -- The instruction that combines the operands, whatever the right one is.
  have hcombined : ∀ m σ₂, ConstsHold S.ctx.analysis S.visible σ₂ → Follows S.lines S.k
      ⟨q + 1 + 1 + 1 + 1 + 1 + right.length, .int m :: .int n :: stackOf F σ₂, back⟩
      (fun r => ⟨q + 1 + 1 + 1 + 1 + 1 + right.length + 1 + 1, pushed r.1 ++ stackOf F r.2, back⟩)
      (Eval.binary op (some (.int n)) (some (.int m)) σ₂) := by
    intro m σ₂ hσ₂
    have hi : binaryInstr? S.ctx.analysis op .int .int =
        some (.binary (Opcode.ofBinOp op) PairByte.intInt) := rfl
    apply Follows.from (runs_mark hjoin).reaches
    exact computes_binary (x := some (.int n)) (y := some (.int m)) rfl rfl hi _ back σ₂ F
      (by simpa using hcombine) hshows hσ₂
  have hcopy : Runs S.lines 1 ⟨q, .int n :: stackOf F σ₁, back⟩
      ⟨q + 1, .int n :: .int n :: stackOf F σ₁, back⟩ := runs_instr hdup (by simp) apply_dup
  rcases runs_onwardJump hop (.int n :: stackOf F σ₁) back hbranch n with
    ⟨hnone, hjump⟩ | ⟨v, hsome, hfold, hjump⟩
  · -- The right operand is evaluated with the left one below it.
    show Follows S.lines S.k _ _ (Eval.unlessDecided _ (shortcut? op (some (.int n))) σ₁)
    rw [hnone, Eval.unlessDecided, bind_apply]
    rw [hplace] at hjump
    apply Follows.from (hcopy.trans (hjump.trans (runs_mark honward))).reaches
    have hrun := hy.under (d := d) [.int n] (by simp) _ back σ₁ F hright hshows hσ₁
    apply hrun.bind
    rintro ⟨w, σ₂⟩ hw
    obtain ⟨hint', hσ₂⟩ := hyint σ₁ hσ₁ w σ₂ hw
    obtain ⟨m, rfl⟩ := hint'.exists_int
    exact hcombined m σ₂ hσ₂
  · -- The left operand decides, and is combined with itself.
    have hagain' : Runs S.lines 1 ⟨q + 1 + 1, .int n :: stackOf F σ₁, back⟩
        ⟨q + 1 + 1 + 1, .int n :: .int n :: stackOf F σ₁, back⟩ :=
      runs_instr hagain (by simp) apply_dup
    have hskip' := runs_jump (.int n :: .int n :: stackOf F σ₁) back hskip
    rw [hplace'] at hskip'
    have hlast := hcombined n σ₁ hσ₁
    rw [show Eval.binary op (some (.int n)) (some (.int n)) σ₁ = .done (some v, σ₁) by
      simp only [Eval.binary, hfold]; rfl] at hlast
    show Follows S.lines S.k _ _ (Eval.unlessDecided _ (shortcut? op (some (.int n))) σ₁)
    rw [hsome]
    exact Follows.from (hcopy.trans (hjump.trans (hagain'.trans hskip'))).reaches hlast

theorem computes_conditional (hnodup : (marks S.lines).Nodup) {test first second : List Op}
    (other join : Label) {x : Eval (Option Value)} {y z : Eval (Option Value)}
    (hx : S.Computes d [] test x pushed) (hxint : S.Gives x fun v => HasType v .int)
    (hy : S.Computes d [] first y pushed) (hz : S.Computes d [] second z pushed) : S.Computes d []
      (test ++ [Op.jump .ifZero other] ++ first ++ [Op.jump .always join] ++ [Op.mark other] ++
        second ++ [Op.mark join]) (do if ← Eval.test (← x) then y else z) pushed := by
  intro p back σ F hloc hshows hσ
  simp only [located_append, located_cons, located_nil, and_true, length_append,
    length_singleton, ← Nat.add_assoc] at hloc ⊢
  obtain ⟨⟨⟨⟨⟨⟨htest, hbranch⟩, hfirst⟩, hskip⟩, hother⟩, hsecond⟩, hjoin⟩ := hloc
  have hplace := place_eq hnodup hother
  have hplace' := place_eq hnodup hjoin
  rw [bind_apply]
  apply (hx p back σ F htest hshows hσ).bind
  rintro ⟨v, σ₁⟩ hv
  obtain ⟨hint, hσ₁⟩ := hxint σ hσ v σ₁ hv
  obtain ⟨n, rfl⟩ := hint.exists_int
  have hjump := runs_ifZero (stackOf F σ₁) back hbranch n
  show Follows S.lines S.k _ _ ((if (n != 0) = true then y else z) σ₁)
  by_cases hn : n = 0
  · rw [if_pos hn, hplace] at hjump
    rw [if_neg (by simpa using hn)]
    apply Follows.from (hjump.trans (runs_mark hother)).reaches
    apply (hz _ back σ₁ F hsecond hshows hσ₁).to
    exact fun r _ => (runs_mark hjoin).reaches
  · rw [if_neg hn] at hjump
    rw [if_pos (by simpa using hn)]
    apply Follows.from hjump.reaches
    apply (hy _ back σ₁ F hfirst hshows hσ₁).to
    intro r _
    have hskip' := runs_jump (pushed r.1 ++ stackOf F r.2) back hskip
    rw [hplace'] at hskip'
    exact (hskip'.trans (runs_mark hjoin)).reaches

/-! ## Fields -/

theorem apply_destruct {x y z : Single} {name : String} {offset : Int}
    (hfield : a.structs.field? .vector name = some (offset, type)) (st : List Constant) :
    ∃ component, vectorComponent? x y z offset = some component ∧ apply ((Value.vector x y z).cells ++ st)
      (.destruct (.ofInt (a.sizeOf .vector)) (.ofInt offset) (.ofInt (a.sizeOf type))) =
      some (.float component :: st) := by
  have hsize : cellCount? (.ofInt (a.sizeOf .vector)) = some 3 := by
    show cellCount? (.ofInt (3 * cellSize)) = some 3
    exact cellCount?_ofInt ⟨by decide, by decide⟩ (by decide)
  have hfloat : cellCount? (.ofInt (a.sizeOf .float)) = some 1 := cellCount?_cell
  have hoffset : ∀ n : Nat, n < 3 → cellCount? (.ofInt (cellSize * n)) = some n := by
    intro n hn
    apply cellCount?_ofInt _ rfl
    unfold IsOperand
    simp only [cellSize]
    omega
  rw [apply_destruct_eq, hsize]
  simp only [StructTable.field?] at hfield
  split at hfield
  · cases hfield
    refine ⟨_, rfl, ?_⟩
    rw [hfloat, show cellCount? (.ofInt 0) = some 0 from hoffset 0 (by omega)]
    rfl
  split at hfield
  · cases hfield
    refine ⟨_, rfl, ?_⟩
    rw [hfloat, show cellCount? (.ofInt cellSize) = some 1 from hoffset 1 (by omega)]
    rfl
  split at hfield
  · cases hfield
    refine ⟨_, rfl, ?_⟩
    rw [hfloat, show cellCount? (.ofInt (2 * cellSize)) = some 2 from hoffset 2 (by omega)]
    rfl
  · cases hfield

theorem vector_of_field {v : Option Value} {fieldType : Ty} {name : String} {offset : Int}
    (h : HasType v type) (hfield : a.structs.field? type name = some (offset, fieldType)) :
    type = .vector ∧ ∃ x y z, v = some (.vector x y z) := by
  cases v with
  | none =>
    obtain rfl : type = .void := h
    cases hfield
  | some v =>
    obtain rfl : v.type = type := h
    cases v with
    | vector x y z => exact ⟨rfl, x, y, z, rfl⟩
    | _ => cases hfield

/-! ## Calls -/

theorem reaches_reserveOps {info : FuncInfo} (hret : info.ret = .int ∨ info.ret = .void)
    (st : List Constant) (back : List Nat)
    (hloc : Located S.lines p (reserveOps (resultCells a info))) :
    ∃ slot : List Constant, slot.length = (resultCells a info).length ∧
      Reaches S.lines ⟨p, st, back⟩ ⟨p + (reserveOps (resultCells a info)).length, slot ++ st, back⟩ := by
  rcases hret with hret | hret
  · have hcells : resultCells a info = [TypeByte.int] := by
      unfold resultCells
      rw [hret]
      cases a.structs.defs <;> rfl
    rw [hcells] at hloc ⊢
    rw [reserveOps, map_cons, located_cons] at hloc
    have hrun : Runs S.lines 1 ⟨p, st, back⟩ ⟨p + 1, .int 0 :: st, back⟩ :=
      runs_instr hloc.1 (by simp) rfl
    exact ⟨[.int 0], rfl, hrun.reaches⟩
  · have hcells : resultCells a info = [] := by rw [resultCells, if_pos hret]
    rw [hcells]
    exact ⟨[], rfl, .refl _⟩

end Computes

end Machine
end Nwscript
