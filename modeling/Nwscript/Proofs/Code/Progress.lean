import Nwscript.Proofs.Code.Access

/-! # How far a construct has been compiled

The state of code generation inside a construct, with the lines so far, the labels that are still to
be marked and what is known of the code. One rule for each step leads from one such state to the
next. -/

open List Option

namespace Nwscript

/-- A construct whose run began in `s₀` has got to `s`. Its labels come with the depths at which they
are reached; those that are pending are marked in their order. -/
structure Progress (c : GenContext) (E₀ : Depths) (s₀ : GenState)
    (pending marked : List (Label × Int)) (ops : List Op) (known : CodeEnv → Prop) (E : Depths) (s : GenState)
    (locals : List (VarId × Int)) (d : Int) : Prop
    extends Advances c.analysis E₀ s₀ E s where
  depth_eq : s.depth = d
  locals_eq : s.locals = locals
  reached : ∀ p ∈ pending ++ marked, p.1 < s.nextLabel ∧ E p.1 = some p.2
  nodup : (pending.map Prod.fst ++ marks ops).Nodup
  range : ∀ label ∈ pending.map Prod.fst ++ marks ops, s₀.nextLabel ≤ label ∧ label < s.nextLabel
  holds : ∀ Γ : CodeEnv, Γ.Covers c E s → known Γ

namespace Progress

open Gen

variable {c : GenContext} {E₀ E E' : Depths} {s₀ s s' : GenState} {pending marked : List (Label × Int)}
  {ops ops' : List Op} {known known' : CodeEnv → Prop}
  {locals locals' : List (VarId × Int)} {d d' : Int}

theorem start (hok : s.Ok c.analysis E) :
    Progress c E s [] [] [] (fun Γ => Γ.ctx = c) E s s.locals s.depth where
  toAdvances := .refl hok
  depth_eq := rfl
  locals_eq := rfl
  reached := by simp
  nodup := by simp
  range := by simp
  holds := fun _ hΓ => hΓ.ctx

theorem finish (h : Progress c E₀ s₀ [] marked ops known E s locals d)
    (hk : ∀ Γ, known Γ → known' Γ) : Progress c E₀ s₀ [] [] ops known' E s locals d :=
  { h with
    reached := by simp
    holds := fun Γ hΓ => hk Γ (h.holds Γ hΓ) }

variable (h : Progress c E₀ s₀ pending marked ops known E s locals d)

include h

theorem weaken (hk : ∀ Γ, known Γ → known' Γ) :
    Progress c E₀ s₀ pending marked ops known' E s locals d :=
  { h with holds := fun Γ hΓ => hk Γ (h.holds Γ hΓ) }

theorem withCtx : Progress c E₀ s₀ pending marked ops (fun Γ => Γ.ctx = c ∧ known Γ) E s locals d :=
  { h with holds := fun Γ hΓ => ⟨hΓ.ctx, h.holds Γ hΓ⟩ }

theorem withLabel {p : Label × Int} (hp : p ∈ pending ++ marked) :
    Progress c E₀ s₀ pending marked ops (fun Γ => known Γ ∧ Γ.depth p.1 = some p.2) E s locals d :=
  { h with
    holds := fun Γ hΓ => ⟨h.holds Γ hΓ, by rw [hΓ.depth p.1 (h.reached p hp).1, (h.reached p hp).2]⟩ }

theorem perm {pending' : List (Label × Int)}
    (hp : pending'.Perm pending) : Progress c E₀ s₀ pending' marked ops known E s locals d :=
  have hmem := (hp.map Prod.fst).append_right (marks ops)
  { h with
    reached := fun p hp' => h.reached p ((hp.append_right marked).mem_iff.mp hp')
    nodup := hmem.nodup_iff.mpr h.nodup
    range := fun label hl => h.range label (hmem.mem_iff.mp hl) }

theorem label {p : Label × Int}
    (hp : p ∈ pending ++ marked) : p.1 < s.nextLabel ∧ E p.1 = some p.2 := h.reached p hp

variable {label : Label} {info : FuncInfo} {effect offset : Int} {slot : Slot} {var : VarId}

theorem labelFromOutside {d : Int} (hlt : label < s₀.nextLabel) (hE : E₀ label = some d) :
    label < s.nextLabel ∧ E label = some d :=
  ⟨Nat.lt_of_lt_of_le hlt h.le, by rw [h.keeps label hlt, hE]⟩

theorem append (h' : Progress c E s [] [] ops' known' E' s' locals' d') :
    Progress c E₀ s₀ pending marked (ops ++ ops') (fun Γ => known Γ ∧ known' Γ) E' s' locals' d' where
  toAdvances := h.toAdvances.trans h'.toAdvances
  depth_eq := h'.depth_eq
  locals_eq := h'.locals_eq
  reached p hp := by
    obtain ⟨hlt, hE⟩ := h.reached p hp
    exact ⟨Nat.lt_of_lt_of_le hlt h'.le, by rw [h'.keeps p.1 hlt, hE]⟩
  nodup := by
    rw [marks_append, ← append_assoc, nodup_append]
    refine ⟨h.nodup, h'.nodup, fun a ha b hb => ?_⟩
    exact Nat.ne_of_lt (Nat.lt_of_lt_of_le (h.range a ha).2 (h'.range b hb).1)
  range label hl := by
    rw [marks_append, ← append_assoc, mem_append] at hl
    rcases hl with hl | hl
    · exact ⟨(h.range label hl).1, Nat.lt_of_lt_of_le (h.range label hl).2 h'.le⟩
    · exact ⟨Nat.le_trans h.le (h'.range label hl).1, (h'.range label hl).2⟩
  holds Γ hΓ := ⟨h.holds Γ (hΓ.of_advances h'.toAdvances), h'.holds Γ hΓ⟩

/-! ## Changes of the state -/

theorem line (hops : marks ops' = []) :
    Progress c E₀ s₀ pending marked (ops ++ ops') known E s locals d :=
  { h with
    nodup := by simpa [hops] using h.nodup
    range := by simpa [hops] using h.range }

theorem setDepth (d' : Int) :
    Progress c E₀ s₀ pending marked ops known E { s with depth := d' } locals d' where
  toAdvances := h.toAdvances.setDepth d'
  depth_eq := rfl
  locals_eq := h.locals_eq
  reached := h.reached
  nodup := h.nodup
  range := h.range
  holds Γ hΓ := h.holds Γ ⟨hΓ.ctx, hΓ.func, hΓ.depth⟩

theorem setLocals (locals' : List (VarId × Int)) :
    Progress c E₀ s₀ pending marked ops known E { s with locals := locals' } locals' d where
  toAdvances := h.toAdvances.setLocals locals'
  depth_eq := h.depth_eq
  locals_eq := rfl
  reached := h.reached
  nodup := h.nodup
  range := h.range
  holds Γ hΓ := h.holds Γ ⟨hΓ.ctx, hΓ.func, hΓ.depth⟩

theorem newLabel (at_ : Int) :
    Progress c E₀ s₀ (pending ++ [(s.nextLabel, at_)]) marked ops known (E.set s.nextLabel (some at_))
      { s with nextLabel := s.nextLabel + 1 } locals d where
  toAdvances := h.toAdvances.newLabel (some at_)
  depth_eq := h.depth_eq
  locals_eq := h.locals_eq
  reached p hp := by
    have hp' : p = (s.nextLabel, at_) ∨ p ∈ pending ++ marked := by
      simp only [mem_append] at hp ⊢
      grind
    rcases hp' with rfl | hp
    · exact ⟨Nat.lt_succ_self _, Depths.set_self ..⟩
    · obtain ⟨hlt, hE⟩ := h.reached p hp
      exact ⟨Nat.lt_succ_of_lt hlt, by rw [Depths.set_of_lt _ hlt, hE]⟩
  nodup := by
    have hperm : ((pending ++ [(s.nextLabel, at_)]).map Prod.fst ++ marks ops).Perm
        (s.nextLabel :: (pending.map Prod.fst ++ marks ops)) := by
      simp
    rw [hperm.nodup_iff, nodup_cons]
    exact ⟨fun hmem => Nat.lt_irrefl _ (h.range _ hmem).2, h.nodup⟩
  range label hl := by
    have hl' : label = s.nextLabel ∨ label ∈ pending.map Prod.fst ++ marks ops := by
      simp only [map_append, mem_append] at hl ⊢
      grind
    rcases hl' with rfl | hl
    · exact ⟨h.le, Nat.lt_succ_self _⟩
    · exact ⟨(h.range label hl).1, Nat.lt_succ_of_lt (h.range label hl).2⟩
  holds Γ hΓ := h.holds Γ (hΓ.of_advances ((Advances.refl h.ok).newLabel (some at_)))

theorem reach (hlabel : label < s.nextLabel ∧ E label = some d) :
    Progress c E₀ s₀ pending marked ops (fun Γ => known Γ ∧ Γ.depth label = some d) E (s.reach label)
      locals d where
  toAdvances := h.toAdvances.reach hlabel.1 (by rw [hlabel.2, h.depth_eq])
  depth_eq := by rw [GenState.reach_depth, h.depth_eq]
  locals_eq := by rw [GenState.reach_locals, h.locals_eq]
  reached := by simpa using h.reached
  nodup := h.nodup
  range := by simpa using h.range
  holds Γ hΓ := by
    have hcovers : Γ.Covers c E s := ⟨hΓ.ctx, by simpa using hΓ.func, by simpa using hΓ.depth⟩
    exact ⟨h.holds Γ hcovers, by rw [hcovers.depth label hlabel.1, hlabel.2]⟩

omit h in
theorem mark {at_ : Int}
    (h : Progress c E₀ s₀ ((label, at_) :: pending) marked ops known E s locals d) :
    Progress c E₀ s₀ pending ((label, at_) :: marked) (ops ++ [.mark label]) known E s locals d where
  toAdvances := h.toAdvances
  depth_eq := h.depth_eq
  locals_eq := h.locals_eq
  reached p hp := h.reached p (by simp only [mem_append, mem_cons] at hp ⊢; grind)
  nodup := by
    have hperm : (pending.map Prod.fst ++ marks (ops ++ [.mark label])).Perm
        (((label, at_) :: pending).map Prod.fst ++ marks ops) := by
      rw [marks_append, ← append_assoc]
      exact perm_append_singleton ..
    exact hperm.nodup_iff.mpr h.nodup
  range other hl := h.range other <| by
    simp only [marks_append, marks_mark, marks_nil, map_cons, mem_append, mem_cons] at hl ⊢
    grind
  holds := h.holds

/-! ## Steps -/

variable {Q : List Op → GenState → Prop}

theorem meets_depth {Q : Int → GenState → Prop} (k : Q d s) : Ends Overflows depth s Q := by
  rw [Gen.ends_depth, h.depth_eq]
  exact k

theorem meets_setDepth {Q : Unit → GenState → Prop}
    (k : ∀ s', Progress c E₀ s₀ pending marked ops known E s' locals d' → Q () s') :
    Ends Overflows (Gen.setDepth d') s Q :=
  k _ (h.setDepth d')

theorem meets_newLabel {Q : Label → GenState → Prop} (at_ : Int) (k : ∀ label E' s',
      Progress c E₀ s₀ (pending ++ [(label, at_)]) marked ops known E' s' locals d → Q label s') :
    Ends Overflows Gen.newLabel s Q :=
  k _ _ _ (h.newLabel at_)

theorem meets_funcLabel {Q : Label → GenState → Prop} {func : FuncId}
    (hf : c.analysis.functions[func]? = some info) (hdef : info.defined = true)
    (k : ∀ label E' s', Progress c E₀ s₀ pending marked ops
      (fun Γ => known Γ ∧ Γ.func func = some label) E' s' locals d → Q label s') :
    Ends Overflows (funcLabel func) s Q := by
  refine Gen.meets_funcLabel h.ok hf hdef fun label E' s' hadv hdepth hlocals hlookup => ?_
  have hstep : Progress c E s [] [] [] (fun Γ => Γ.func func = some label) E' s' locals d :=
    { hadv with
      depth_eq := hdepth.trans h.depth_eq
      locals_eq := hlocals.trans h.locals_eq
      reached := by simp
      nodup := by simp
      range := by simp
      holds := fun Γ hΓ => hΓ.func func label hlookup }
  exact k label E' s' (by simpa using h.append hstep)

theorem meets_emit {i : Instr} (hi : i.effect? = some effect) (hd : d + effect = d')
    (k : ∀ s', Progress c E₀ s₀ pending marked (ops ++ [.instr i]) known E s' locals d' →
      Q [.instr i] s') : Ends Overflows (emit i) s Q := by
  rw [Gen.meets_emit, hi, getD_some, h.depth_eq, hd]
  exact fun _ => k _ ((h.line rfl).setDepth d')

theorem meets_emitCall {op : Op} (hop : marks [op] = []) (hd : d + effect = d')
    (k : ∀ s', Progress c E₀ s₀ pending marked (ops ++ [op]) known E s' locals d' → Q [op] s') :
    Ends Overflows (emitCall op effect) s Q := by
  rw [Gen.meets_emitCall, h.depth_eq, hd]
  exact fun _ => k _ ((h.line hop).setDepth d')

theorem meets_duplicate
    (k : ∀ s', Progress c E₀ s₀ pending marked (ops ++ [dupOp]) known E s' locals (d + cellSize) →
      Q [dupOp] s') : Ends Overflows duplicate s Q :=
  h.meets_emit rfl rfl k

theorem meets_jump {kind : JumpKind} (hkind : (Op.jump kind label).effect? = some effect)
    (hlabel : label < s.nextLabel ∧ E label = some d') (hd : d + effect = d')
    (k : ∀ s', Progress c E₀ s₀ pending marked (ops ++ [.jump kind label])
      (fun Γ => known Γ ∧ Γ.depth label = some d') E s' locals d' → Q [.jump kind label] s') :
    Ends Overflows (jump kind label) s Q := by
  rw [Gen.meets_jump, hkind, getD_some, h.depth_eq, hd]
  exact fun _ => ⟨h.ok.noted hlabel.2, k _ (((h.line rfl).setDepth d').reach hlabel)⟩

omit h in
theorem meets_mark (h : Progress c E₀ s₀ ((label, d) :: pending) marked ops known E s locals d)
    (k : ∀ s', Progress c E₀ s₀ pending ((label, d) :: marked) (ops ++ [.mark label])
      (fun Γ => known Γ ∧ Γ.depth label = some d) E s' locals d → Q [.mark label] s') :
    Ends Overflows (Gen.mark label) s Q := by
  have hlabel := h.label (.head _)
  rw [Gen.meets_mark, h.depth_eq]
  exact ⟨h.ok.noted hlabel.2, k _ (h.reach hlabel).mark⟩

theorem meets_moveSp (hd : d + offset = d')
    (k : Fits offset → Fits d' → ∀ s', Progress c E₀ s₀ pending marked
      (ops ++ [.instr (.moveSp (.ofInt offset))]) known E s' locals d' →
        Q [.instr (.moveSp (.ofInt offset))] s') : Ends Overflows (moveSp offset) s Q := by
  rw [Gen.meets_moveSp, h.depth_eq, hd]
  exact fun hfits hfits' => k hfits hfits' _ ((h.line rfl).setDepth d')

theorem meets_popTo {target : Int} (hle : target ≤ d)
    (k : PopFits d target → ∀ s', Progress c E₀ s₀ pending marked (ops ++ popOps d target) known E
      s' locals target → Q (popOps d target) s') : Ends Overflows (popTo target) s Q := by
  rw [Gen.meets_popTo, h.depth_eq]
  exact ⟨hle, fun hfits => k hfits _ ((h.line marks_popOps).setDepth target)⟩

theorem meets_constant {v : Value}
    (k : ∀ s', Progress c E₀ s₀ pending marked (ops ++ constantOps v) known E s' locals
      (d + c.analysis.sizeOf v.type) → Q (constantOps v) s') : Ends Overflows (constant v) s Q := by
  refine Gen.meets_constant (c := c) ?_
  rw [h.depth_eq]
  exact k _ ((h.line marks_constantOps).setDepth _)

theorem meets_pushes {g : Gen (List Op)} {cells : List UInt8} (hg : Pushes g cells)
    (k : (Fits d → Fits (d + cellSize * cells.length)) → ∀ s', Progress c E₀ s₀ pending marked
      (ops ++ reserveOps cells) known E s' locals (d + cellSize * cells.length) →
        Q (reserveOps cells) s') : Ends Overflows g s Q := by
  refine hg s Q fun hfits => ?_
  rw [h.depth_eq] at hfits ⊢
  exact k hfits _ ((h.line marks_reserveOps).setDepth _)

theorem meets_reserve (hc : c.Ok) {type : Ty} (htype : c.analysis.Storable type)
    (k : ∀ s', Progress c E₀ s₀ pending marked (ops ++ reserveOps (cellsIn c.analysis.structs.defs type))
      known E s' locals (d + c.analysis.sizeOf type) →
        Q (reserveOps (cellsIn c.analysis.structs.defs type)) s') :
    Ends Overflows (reserve c type) s Q := by
  have hsize : cellSize * (cellsIn c.analysis.structs.defs type).length = c.analysis.sizeOf type :=
    hc.small.fitting.size_cellsIn hc.structs type
  rw [← hsize] at k
  exact h.meets_pushes (pushes_reserveIn hc.structs htype.isStorable htype.declared) fun _ => k

omit h in
theorem size_resultCells (hc : c.Ok) (info : FuncInfo) :
    cellSize * (resultCells c.analysis info).length = c.analysis.sizeOf info.ret := by
  unfold resultCells
  split
  · next hvoid =>
    rw [hvoid]
    rfl
  · exact hc.small.fitting.size_cellsIn hc.structs info.ret

theorem meets_reserveResult (hc : c.Ok) (hret : info.ret = .void ∨ c.analysis.Storable info.ret)
    (k : ∀ s', Progress c E₀ s₀ pending marked (ops ++ reserveOps (resultCells c.analysis info)) known E
      s' locals (d + c.analysis.sizeOf info.ret) →
        Q (reserveOps (resultCells c.analysis info)) s') :
    Ends Overflows (reserveResult c info) s Q := by
  by_cases hvoid : info.ret = .void
  · have hzero : d + c.analysis.sizeOf info.ret = d := by
      rw [hvoid]
      exact Int.add_zero _
    rw [resultCells, if_pos hvoid, hzero] at k
    rw [reserveResult, if_pos hvoid, Gen.ends_pure]
    exact k s (h.line rfl)
  · rw [resultCells, if_neg hvoid] at k
    rw [reserveResult, if_neg hvoid]
    exact h.meets_reserve hc (hret.resolve_left hvoid) k

theorem meets_binaryOp (hc : c.Ok) {op : BinOp}
    {lhs rhs type : Ty} (htype : binaryType? op lhs rhs = some type) (hslot : lhs.HasSlot)
    (hd : d + typedEffect c.analysis lhs rhs type = d')
    (k : ∀ i, binaryInstr? c.analysis op lhs rhs = some i → i.effect? = some (d' - d) →
      ∀ s', Progress c E₀ s₀ pending marked (ops ++ [.instr i]) known E s' locals d' → Q [.instr i] s') :
    Ends Overflows (binaryOp c op lhs rhs) s Q := by
  refine Gen.meets_binaryOp hc htype hslot fun i hi heffect => ?_
  rw [h.depth_eq, hd]
  exact k i hi (by rw [heffect, ← hd]; congr 1; omega) _ ((h.line rfl).setDepth d')

theorem meets_load {size : Int} (hsize : IsOperand size) (hslot : slotOf c locals var = some slot)
    (k : Addresses c locals d var offset slot → ∀ s', Progress c E₀ s₀ pending marked
      (ops ++ [loadOp c slot d offset size]) known E s' locals (d + size) →
        Q [loadOp c slot d offset size] s') : Ends Overflows (load c var offset size) s Q := by
  refine Gen.meets_load hsize (by rw [h.locals_eq]; exact hslot) fun haddr => ?_
  rw [h.locals_eq, h.depth_eq] at haddr
  rw [h.depth_eq]
  exact k haddr _ ((h.line rfl).setDepth _)

theorem meets_store {size : Int} (hslot : slotOf c locals var = some slot)
    (k : Addresses c locals d var offset slot → ∀ s', Progress c E₀ s₀ pending marked
      (ops ++ [storeOp c slot d offset size]) known E s' locals d →
        Q [storeOp c slot d offset size] s') : Ends Overflows (store c var offset size) s Q := by
  refine Gen.meets_store (by rw [h.locals_eq]; exact hslot) fun haddr => ?_
  rw [h.locals_eq, h.depth_eq] at haddr
  rw [h.depth_eq]
  exact k haddr _ (h.line rfl)

theorem meets_stepVar {st : Step} (hslot : slotOf c locals var = some slot)
    (k : Addresses c locals d var 0 slot → ∀ s', Progress c E₀ s₀ pending marked
      (ops ++ [stepOp c st slot d]) known E s' locals d → Q [stepOp c st slot d] s') :
    Ends Overflows (stepVar c st var) s Q := by
  refine Gen.meets_stepVar (by rw [h.locals_eq]; exact hslot) fun haddr => ?_
  rw [h.locals_eq, h.depth_eq] at haddr
  rw [h.depth_eq]
  exact k haddr _ (h.line rfl)

end Progress
end Nwscript
