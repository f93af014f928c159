import Nwscript.Proofs.Code.Expr

/-! # Code of statements

Code generation compiles every statement that the typing rules allow. A statement leaves the stack at
the depth it found, but for the variables it declares; so the depth at a label of a switch, where no
variable of the switch is visible, is the depth of its tests. -/

open List Option

namespace Nwscript
namespace Gen

/-! ## Variables on the stack -/

def varSize (a : Analysis) (var : VarId) : Int :=
  match a.vars[var]? with
  | some info => a.sizeOf info.type
  | none => 0

def extent (a : Analysis) (visible : List VarId) : Int := (visible.map (varSize a)).sum

def opensAll (a : Analysis) (visible : List VarId) (ss : List Stmt) : List VarId :=
  ss.foldl (fun visible s => s.opens a visible) visible

variable {c : GenContext} {f : Frame} {visible visible' : List VarId}

theorem varSize_nonneg (hc : c.Ok) (var : VarId) : 0 ≤ varSize c.analysis var := by
  unfold varSize
  split
  · exact (hc.isOperand _).1
  · exact Int.le_refl 0

theorem suffix_openedBy (a : Analysis) (visible : List VarId) (ds : List Declarator) :
    visible <:+ openedBy a visible ds := by
  induction ds generalizing visible with
  | nil => exact suffix_rfl
  | cons d ds ih => exact (suffix_append _ _).trans (ih _)

theorem suffix_opens (a : Analysis) (visible : List VarId) (s : Stmt) :
    visible <:+ s.opens a visible := by
  cases s with
  | var pos decl => exact suffix_openedBy a visible decl.vars
  | _ => exact suffix_rfl

theorem suffix_opensAll (a : Analysis) (visible : List VarId) (ss : List Stmt) :
    visible <:+ opensAll a visible ss := by
  induction ss generalizing visible with
  | nil => exact suffix_rfl
  | cons s ss ih => exact (suffix_opens a visible s).trans (ih _)

theorem extent_le (hc : c.Ok) (h : visible <:+ visible') :
    extent c.analysis visible ≤ extent c.analysis visible' := by
  obtain ⟨new, rfl⟩ := h
  have hnonneg : 0 ≤ (new.map (varSize c.analysis)).sum :=
    sum_nonneg (by simpa using fun var _ => varSize_nonneg hc var)
  rw [extent, extent, map_append, sum_append]
  omega

variable {locals : List (VarId × Int)} {leave : Label} {targets : List JumpTarget}
  {ctx : BodyContext} {e : Option Expr} {pos : Pos} {Q : List Op → GenState → Prop}
  {pending marked : List (Label × Int)} {known : CodeEnv → Prop} {s₀ s : GenState} {ops : List Op}
  {E₀ E : Depths} {type : Ty} {d : Int} {cond : Expr} {ss : List Stmt}

theorem placed_of_suffix (hp : Placed c visible' locals) (h : visible <:+ visible') :
    Placed c visible locals :=
  fun var hvar => hp var (h.subset hvar)

theorem placed_cons (hp : Placed c visible locals) {var : VarId} {info : VarInfo}
    (hinfo : c.analysis.vars[var]? = some info) (hstorable : c.analysis.Storable info.type)
    (bottom : Int) : Placed c (var :: visible) ((var, bottom) :: locals) := by
  intro other hother
  by_cases heq : other = var
  · subst heq
    exact ⟨info, bottom, hinfo, hstorable, lookup_cons_self⟩
  · obtain ⟨info', bottom', hinfo', hstorable', hl⟩ :=
      hp other ((mem_cons.mp hother).resolve_left heq)
    refine ⟨info', bottom', hinfo', hstorable', ?_⟩
    have hne : (other == var) = false := by simpa using heq
    rw [lookup_cons, hne]
    exact hl

/-! ## Where a statement stands -/

/-- The labels around a statement: breaks and continues have targets, and what they pop is there. -/
structure Inside (a : Analysis) (f : Frame) (ctx : BodyContext) (targets : List JumpTarget)
    (E : Depths) (next : Label) (d : Int) : Prop where
  result : ∀ bottom size, f.result = some (bottom, size) → 0 < size ∧ size = a.sizeOf ctx.ret
  exit : f.exit < next ∧ E f.exit = some 0
  depth : 0 ≤ d
  breakable : ctx.breakables ≠ 0 → targets ≠ []
  loop : ctx.loops ≠ 0 → ∃ p, continueTarget? targets = some p
  targets : ∀ t ∈ targets, t.depth ≤ d ∧ ∀ label, label = t.leave ∨ t.again = some label →
    label < next ∧ E label = some t.depth

namespace Inside

variable {ctx : BodyContext} {targets : List JumpTarget} {E E' : Depths} {s s' : GenState} {d d' : Int}

theorem mono (h : Inside c.analysis f ctx targets E s.nextLabel d)
    (hadv : Advances c.analysis E s E' s') (hd : d ≤ d') :
    Inside c.analysis f ctx targets E' s'.nextLabel d' := by
  have hlabel {label : Label} {d : Int} (hl : label < s.nextLabel ∧ E label = some d) :
      label < s'.nextLabel ∧ E' label = some d :=
    ⟨Nat.lt_of_lt_of_le hl.1 hadv.le, by rw [hadv.keeps label hl.1, hl.2]⟩
  refine ⟨h.result, hlabel h.exit, Int.le_trans h.depth hd, h.breakable, h.loop, fun t ht => ?_⟩
  obtain ⟨hle, hlabels⟩ := h.targets t ht
  exact ⟨Int.le_trans hle hd, fun label hl => hlabel (hlabels label hl)⟩

variable {next : Label}

theorem deeper (h : Inside c.analysis f ctx targets E next d) (hd : d ≤ d') :
    Inside c.analysis f ctx targets E next d' :=
  ⟨h.result, h.exit, Int.le_trans h.depth hd, h.breakable, h.loop, fun t ht =>
    ⟨Int.le_trans (h.targets t ht).1 hd, (h.targets t ht).2⟩⟩

theorem inLoop {again : Label} (h : Inside c.analysis f ctx targets E next d)
    (hleave : leave < next ∧ E leave = some d) (hagain : again < next ∧ E again = some d) :
    Inside c.analysis f ctx.inLoop (⟨leave, some again, d⟩ :: targets) E next d := by
  refine ⟨h.result, h.exit, h.depth, fun _ => by simp, fun _ => ⟨(again, d), rfl⟩, fun t ht => ?_⟩
  rcases mem_cons.mp ht with rfl | ht
  · refine ⟨Int.le_refl d, fun label hl => ?_⟩
    rcases hl with rfl | hl
    · exact hleave
    · cases hl
      exact hagain
  · exact h.targets t ht

theorem inSwitch (h : Inside c.analysis f ctx targets E next d)
    (hleave : leave < next ∧ E leave = some d) :
    Inside c.analysis f ctx.inSwitch (⟨leave, none, d⟩ :: targets) E next d := by
  refine ⟨h.result, h.exit, h.depth, fun _ => by simp, h.loop, fun t ht => ?_⟩
  rcases mem_cons.mp ht with rfl | ht
  · refine ⟨Int.le_refl d, fun label hl => ?_⟩
    rcases hl with rfl | hl
    · exact hleave
    · cases hl
  · exact h.targets t ht

theorem continueTarget (h : Inside c.analysis f ctx targets E next d) {label : Label} {at_ : Int}
    (hc : continueTarget? targets = some (label, at_)) :
    at_ ≤ d ∧ label < next ∧ E label = some at_ := by
  obtain ⟨t, ht, hagain⟩ := exists_of_findSome?_eq_some hc
  obtain ⟨label', hl, heq⟩ := map_eq_some_iff.mp hagain
  obtain ⟨rfl, rfl⟩ := Prod.mk.inj heq
  obtain ⟨hle, hlabels⟩ := h.targets t ht
  exact ⟨hle, hlabels _ (.inr hl)⟩

end Inside

def CompilesStmt (c : GenContext) (f : Frame) (ctx : BodyContext) (targets : List JumpTarget)
    (visible : List VarId) (piece : StmtPiece) (visible' : List VarId) (g : Gen (List Op)) : Prop :=
  ∀ E s, s.Ok c.analysis E → Placed c visible s.locals →
    Inside c.analysis f ctx targets E s.nextLabel s.depth → Ends Overflows g s fun ops s' => ∃ E' locals' d',
      Placed c visible' locals' ∧
      d' = s.depth + (extent c.analysis visible' - extent c.analysis visible) ∧
      Progress c E s [] [] ops
        (fun Γ => StmtCode Γ f targets piece ⟨s.locals, s.depth⟩ ops ⟨locals', d'⟩) E' s' locals' d'

section Run

variable {E₀ E : Depths} {s₀ s : GenState} {pending marked : List (Label × Int)} {ops : List Op}
  {known : CodeEnv → Prop} {locals : List (VarId × Int)} {d : Int} {Q : List Op → GenState → Prop}

theorem CompilesStmt.run {piece : StmtPiece} {g : Gen (List Op)}
    (hg : CompilesStmt c f ctx targets visible piece visible' g)
    (h : Progress c E₀ s₀ pending marked ops known E s locals d) (hplaced : Placed c visible locals)
    (hin : Inside c.analysis f ctx targets E s.nextLabel d)
    (k : ∀ ops' E' s' locals' d', Placed c visible' locals' →
      d' = d + (extent c.analysis visible' - extent c.analysis visible) →
      Progress c E₀ s₀ pending marked (ops ++ ops')
        (fun Γ => known Γ ∧ StmtCode Γ f targets piece ⟨locals, d⟩ ops' ⟨locals', d'⟩) E' s' locals'
        d' → Q ops' s') : Ends Overflows g s Q := by
  refine (hg E s h.ok (by rw [h.locals_eq]; exact hplaced) (by rw [h.depth_eq]; exact hin)).mono
    fun ops' s' ⟨E', locals', d', hplaced', hd', h'⟩ => ?_
  rw [h.depth_eq] at hd' h'
  rw [h.locals_eq] at h'
  exact k ops' E' s' locals' d' hplaced' hd' (h.append h')

theorem meets_discarded (hc : c.Ok) {e : Expr} (husable : Usable c.engine c.analysis visible e)
    (h : Progress c E₀ s₀ pending marked ops known E s locals d) (hplaced : Placed c visible locals)
    (k : ∀ ops' E' s', Progress c E₀ s₀ pending marked (ops ++ ops')
      (fun Γ => known Γ ∧ DiscardCode Γ f ⟨locals, d⟩ e ops') E' s' locals d → Q ops' s') :
    Ends Overflows (discarded c f e) s Q := by
  obtain ⟨type, htype⟩ := husable.typeOf_isSome
  have ht : c.analysis.types.get? e.id = some type := htype
  have hsize := (hc.isOperand type).1
  simp only [discarded, ends_bind, typeOf, ht, orFault, ends_pure]
  refine (compiles_expr hc husable htype).run h hplaced fun value E' s' h => ?_
  split
  · next hpos =>
    have hpops : popOps (d + c.analysis.sizeOf type) d =
        [.instr (.moveSp (.ofInt (-c.analysis.sizeOf type)))] := by
      rw [popOps, if_neg (by omega)]
      congr 4
      omega
    rw [ends_bind]
    refine h.meets_moveSp (Int.add_neg_cancel_right ..) fun hfits hfits' s' h => ?_
    rw [ends_pure]
    refine k _ E' s' ?_
    rw [← append_assoc]
    refine h.weaken ?_
    rintro Γ ⟨hknown, hcode⟩
    refine ⟨hknown, value, _, hcode, fun _ => ⟨?_, hfits'⟩, by rw [hpops]⟩
    dsimp only
    rwa [show d - (d + c.analysis.sizeOf type) = -c.analysis.sizeOf type by omega]
  · next hpos =>
    have hzero : d + c.analysis.sizeOf type = d := by omega
    rw [ends_pure]
    rw [hzero] at h
    refine k _ E' s' (h.weaken ?_)
    rintro Γ ⟨hknown, hcode⟩
    exact ⟨hknown, value, d, hcode, fun hne => absurd rfl hne, by simp [popOps]⟩

theorem meets_optional (hc : c.Ok) (husable : ∀ x ∈ e, Usable c.engine c.analysis visible x)
    (h : Progress c E₀ s₀ pending marked ops known E s locals d) (hplaced : Placed c visible locals)
    (k : ∀ ops' E' s', Progress c E₀ s₀ pending marked (ops ++ ops')
      (fun Γ => known Γ ∧ OptionalCode Γ f ⟨locals, d⟩ e ops') E' s' locals d → Q ops' s') :
    Ends Overflows (optional c f e) s Q := by
  cases e with
  | some x => exact meets_discarded hc (husable x rfl) h hplaced k
  | none =>
    refine k [] E s ?_
    exact (h.line rfl).weaken fun Γ hknown => ⟨hknown, rfl⟩

theorem meets_exitUnless (hc : c.Ok) (husable : ∀ x ∈ e, UsableAs c.engine c.analysis visible .int x)
    (h : Progress c E₀ s₀ pending marked ops known E s locals d) (hplaced : Placed c visible locals)
    (hleave : (leave, d) ∈ pending ++ marked)
    (k : ∀ ops' E' s', Progress c E₀ s₀ pending marked (ops ++ ops')
      (fun Γ => known Γ ∧ ExitCode Γ f ⟨locals, d⟩ leave e ops') E' s' locals d → Q ops' s') :
    Ends Overflows (exitUnless c f leave e) s Q := by
  cases e with
  | some x =>
    have hx := husable x rfl
    simp only [exitUnless, ends_bind, ends_pure]
    refine (compiles_expr hc hx.toUsable hx.typeOf).run h hplaced fun test E' _ h => ?_
    refine h.meets_jump rfl (h.label hleave) (Int.add_neg_cancel_right ..) fun s' h => ?_
    refine k _ E' s' ?_
    rw [← append_assoc]
    refine h.weaken ?_
    rintro Γ ⟨⟨hknown, htest⟩, -⟩
    exact ⟨hknown, test, htest, rfl⟩
  | none =>
    refine k [] E s ?_
    exact (h.line rfl).weaken fun Γ hknown => ⟨hknown, rfl⟩

end Run

/-! ## Statements without others in them -/

section Simple

variable {ctx : BodyContext} {targets : List JumpTarget}

theorem compilesStmt_expr (hc : c.Ok) {e : Expr} (h : Usable c.engine c.analysis visible e) :
    CompilesStmt c f ctx targets visible (.stmt (.expr pos e)) visible (discarded c f e) := by
  intro E s hok hplaced _
  refine meets_discarded hc h (Progress.start hok) hplaced fun ops E' s' h => ?_
  refine ⟨E', s.locals, s.depth, hplaced, by omega, h.finish ?_⟩
  rintro Γ ⟨-, hcode⟩
  exact .expr hcode

theorem compilesStmt_empty :
    CompilesStmt c f ctx targets visible (.stmt (.empty pos)) visible (return []) := by
  intro E s hok hplaced _
  rw [ends_pure]
  exact ⟨E, s.locals, s.depth, hplaced, by omega, (Progress.start hok).weaken fun Γ _ => .empty⟩

theorem compilesStmt_breakOut {target : JumpTarget} :
    CompilesStmt c f ctx (target :: targets) visible (.stmt (.breakOut pos)) visible
      (jumpOut target.leave target.depth) := by
  intro E s hok hplaced hin
  obtain ⟨hle, hlabels⟩ := hin.targets target (.head _)
  simp only [jumpOut, ends_bind, ends_pure]
  have h := Progress.start hok
  refine h.meets_depth ?_
  refine h.meets_popTo hle fun hpop _ h => ?_
  have hlabel := hlabels target.leave (.inl rfl)
  refine h.meets_jump rfl (h.labelFromOutside hlabel.1 hlabel.2) (Int.add_zero _) fun _ h => ?_
  refine h.meets_setDepth fun _ h => ?_
  refine ⟨_, s.locals, s.depth, hplaced, by omega, h.finish ?_⟩
  rintro Γ ⟨-, hdepth⟩
  exact .breakOut hpop hdepth

theorem compilesStmt_continueLoop {label : Label} {at_ : Int}
    (htarget : continueTarget? targets = some (label, at_)) :
    CompilesStmt c f ctx targets visible (.stmt (.continueLoop pos)) visible (jumpOut label at_) := by
  intro E s hok hplaced hin
  obtain ⟨hle, hlabel⟩ := hin.continueTarget htarget
  simp only [jumpOut, ends_bind, ends_pure]
  have h := Progress.start hok
  refine h.meets_depth ?_
  refine h.meets_popTo hle fun hpop _ h => ?_
  refine h.meets_jump rfl (h.labelFromOutside hlabel.1 hlabel.2) (Int.add_zero _) fun _ h => ?_
  refine h.meets_setDepth fun _ h => ?_
  refine ⟨_, s.locals, s.depth, hplaced, by omega, h.finish ?_⟩
  rintro Γ ⟨-, hdepth⟩
  exact .continueLoop htarget hpop hdepth

theorem compilesStmt_ret (hc : c.Ok) {value : Option Expr}
    (hvalue : ReturnOk c.engine c.analysis ctx.ret visible value) :
    CompilesStmt c f ctx targets visible (.stmt (.ret pos value)) visible (returnValue c f value) := by
  intro E s hok hplaced hin
  have hexit := hin.exit
  have h := Progress.start hok
  simp only [returnValue, ends_bind, ends_pure]
  refine h.meets_depth ?_
  have hplain (hnone : f.result = none) : Ends Overflows (storeResult c f value) s fun r s₁ =>
      Ends Overflows (popTo 0) s₁ fun pop s₂ => Ends Overflows (jump .always f.exit) s₂ fun j s₃ =>
        Ends Overflows (setDepth s.depth) s₃ fun _ s₄ => ∃ E' locals' d', Placed c visible locals' ∧
          d' = s.depth + (extent c.analysis visible - extent c.analysis visible) ∧
          Progress c E s [] [] (r ++ pop ++ j) (fun Γ => StmtCode Γ f targets (.stmt (.ret pos value))
            ⟨s.locals, s.depth⟩ (r ++ pop ++ j) ⟨locals', d'⟩) E' s₄ locals' d' := by
    have hstore : storeResult c f value = return [] := by
      unfold storeResult
      rw [hnone]
      cases value <;> rfl
    rw [hstore, ends_pure]
    refine h.meets_popTo hin.depth fun hpop _ h => ?_
    refine h.meets_jump rfl (h.labelFromOutside hexit.1 hexit.2) (Int.add_zero _) fun _ h => ?_
    refine h.meets_setDepth fun _ h => ?_
    refine ⟨_, s.locals, s.depth, hplaced, by omega, h.finish ?_⟩
    rintro Γ ⟨-, hdepth⟩
    exact .returnPlain hnone hpop hdepth
  cases hresult : f.result with
  | none => exact hplain hresult
  | some r =>
    obtain ⟨bottom, size⟩ := r
    obtain ⟨hpos, rfl⟩ := hin.result bottom size hresult
    cases value with
    | none =>
      rw [show ctx.ret = .void from hvalue] at hpos
      cases hpos
    | some e =>
      obtain ⟨-, husable⟩ := hvalue
      have hsize := (hc.isOperand ctx.ret).1
      simp only [storeResult, hresult, ends_bind, ends_pure]
      refine (compiles_expr hc husable.toUsable husable.typeOf).run h hplaced fun ops _ _ h => ?_
      refine h.meets_depth ?_
      rw [meets_fit]
      intro hfits
      refine h.meets_emit rfl (Int.add_zero _) fun _ h => ?_
      refine h.meets_popTo (Int.add_nonneg hin.depth hsize) fun hpop _ h => ?_
      refine h.meets_jump rfl (h.labelFromOutside hexit.1 hexit.2) (Int.add_zero _) fun _ h => ?_
      refine h.meets_setDepth fun _ h => ?_
      refine ⟨_, s.locals, s.depth, hplaced, by omega, h.finish ?_⟩
      rintro Γ ⟨⟨-, hcode⟩, hdepth⟩
      exact .returnValue hresult hcode hfits hpop hdepth

end Simple

/-! ## Declarations -/

section Vars

variable {ctx : BodyContext} {targets : List JumpTarget}

theorem meets_initVar (hc : c.Ok)
    (husable : ∀ x, e = some x → UsableAs c.engine c.analysis visible type x)
    (h : Progress c E₀ s₀ pending marked ops known E s locals d) (hplaced : Placed c visible locals)
    (k : ∀ ops' E' s', Progress c E₀ s₀ pending marked (ops ++ ops')
      (fun Γ => known Γ ∧ InitCode Γ f locals d (c.analysis.sizeOf type) e ops') E' s' locals d →
        Q ops' s') : Ends Overflows (initVar c f (c.analysis.sizeOf type) e) s Q := by
  cases e with
  | some x =>
    have hx := husable x rfl
    simp only [initVar, ends_bind, ends_pure]
    refine (compiles_expr hc hx.toUsable hx.typeOf).run h hplaced fun value E' _ h => ?_
    refine h.meets_emit rfl (Int.add_zero _) fun _ h => ?_
    refine h.meets_moveSp (Int.add_neg_cancel_right ..) fun _ _ s' h => ?_
    refine k _ E' s' ?_
    rw [← append_assoc, ← append_assoc]
    refine h.weaken ?_
    rintro Γ ⟨hknown, hvalue⟩
    exact ⟨hknown, value, hvalue, rfl⟩
  | none =>
    refine k [] E s ?_
    exact (h.line rfl).weaken fun Γ hknown => ⟨hknown, rfl⟩

theorem extent_cons {a : Analysis} {var : VarId} {info : VarInfo} (hinfo : a.vars[var]? = some info)
    (visible : List VarId) : extent a (var :: visible) = a.sizeOf info.type + extent a visible := by
  rw [extent, map_cons, sum_cons, varSize, hinfo]
  rfl

theorem compilesStmt_vars (hc : c.Ok) {ds : List Declarator}
    (hds : DeclaratorsOk c.engine c.analysis visible ds) :
    CompilesStmt c f ctx targets visible (.vars ds) (openedBy c.analysis visible ds)
      (sequence (ds.map (declareVar c f))) := by
  induction ds generalizing visible with
  | nil =>
    intro E s hok hplaced _
    simp only [map_nil, sequence, ends_pure]
    exact ⟨E, s.locals, s.depth, hplaced, by simp [openedBy],
      (Progress.start hok).weaken fun Γ _ => .noVars⟩
  | cons d ds ih =>
    obtain ⟨var, info, hvar, hrest⟩ := hds
    have hopened : openedBy c.analysis visible (d :: ds) =
        openedBy c.analysis (var :: visible) ds := by
      rw [openedBy, hvar.decl]
      rfl
    have hext := extent_cons hvar.known visible
    have hsize := (hc.isOperand info.type).1
    intro E s hok hplaced hin
    simp only [map_cons, sequence, declareVar, declVar, varInfo, hvar.decl, hvar.known, orFault,
      ends_bind, ends_pure, ends_modify]
    refine (Progress.start hok).meets_depth ?_
    refine (Progress.start hok).meets_reserve hc hvar.storable fun _ h => ?_
    refine meets_initVar hc hvar.init h hplaced fun init E' s' h => ?_
    rw [h.locals_eq]
    have h := h.setLocals ((var, s.depth) :: s.locals)
    have hin' := hin.mono h.toAdvances (Int.le_add_of_nonneg_right hsize)
    refine (ih hrest).run h (placed_cons hplaced hvar.known hvar.storable s.depth) hin'
      fun rest E'' s'' locals' d' hplaced' hd' h => ?_
    refine ⟨E'', locals', d', by rw [hopened]; exact hplaced', by rw [hopened]; omega, h.finish ?_⟩
    rintro Γ ⟨⟨rfl, hinit⟩, hcode⟩
    exact .vars hvar.decl hvar.known rfl (hc.small.fitting.size_cellsIn hc.structs _) hinit hcode

end Vars

/-! ## Blocks and branches -/

section Nested

variable {ctx : BodyContext} {targets : List JumpTarget} {yes no : Stmt}

theorem CompilesStmt.nested (hc : c.Ok) {piece piece' : StmtPiece} {g : Gen (List Op)}
    (hg : CompilesStmt c f ctx targets visible piece visible' g) (hsuffix : visible <:+ visible')
    (hpiece : ∀ {Γ m m' ops}, StmtCode Γ f targets piece m ops m' → PopFits m'.depth m.depth →
      StmtCode Γ f targets piece' m (ops ++ popOps m'.depth m.depth) ⟨m'.locals, m.depth⟩) :
    CompilesStmt c f ctx targets visible piece' visible (Gen.nested g) := by
  intro E s hok hplaced hin
  have hle := extent_le hc hsuffix
  simp only [Gen.nested, ends_bind, ends_pure]
  refine (Progress.start hok).meets_depth ?_
  refine hg.run (Progress.start hok) hplaced hin fun ops E' s' locals' d' hplaced' hd' h => ?_
  refine h.meets_popTo (by omega) fun hpop _ h => ?_
  refine ⟨E', locals', s.depth, placed_of_suffix hplaced' hsuffix, by omega, h.finish ?_⟩
  rintro Γ ⟨-, hcode⟩
  exact hpiece hcode hpop

/-- A nested statement as a part of a construct: the depth stays. -/
theorem CompilesStmt.runNested {st : Stmt} {g : Gen (List Op)}
    (hg : CompilesStmt c f ctx targets visible (.nested st) visible g)
    (h : Progress c E₀ s₀ pending marked ops known E s locals d) (hplaced : Placed c visible locals)
    (hin : Inside c.analysis f ctx targets E s.nextLabel d)
    (k : ∀ ops' E' s' locals', Placed c visible locals' → Progress c E₀ s₀ pending marked (ops ++ ops')
      (fun Γ => known Γ ∧ StmtCode Γ f targets (.nested st) ⟨locals, d⟩ ops' ⟨locals', d⟩) E' s'
      locals' d → Q ops' s') : Ends Overflows g s Q := by
  refine hg.run h hplaced hin fun ops' E' s' locals' d' hplaced' hd' h => ?_
  obtain rfl : d' = d := by omega
  exact k ops' E' s' locals' hplaced' h

theorem compilesStmt_ifThen (hc : c.Ok) (hcond : UsableAs c.engine c.analysis visible .int cond)
    (hyes : CompilesStmt c f ctx targets visible (.nested yes) visible (nested (stmt c f targets yes))) :
    CompilesStmt c f ctx targets visible (.stmt (.ifThen pos cond yes)) visible
      (stmt c f targets (.ifThen pos cond yes)) := by
  intro E s hok hplaced hin
  simp only [stmt, ends_bind, ends_pure]
  refine (Progress.start hok).meets_newLabel s.depth fun other _ _ h => ?_
  refine (compiles_expr hc hcond.toUsable hcond.typeOf).run h hplaced fun test _ _ h => ?_
  refine h.meets_jump rfl (h.label (.head _)) (Int.add_neg_cancel_right ..) fun _ h => ?_
  refine hyes.runNested h hplaced (hin.mono h.toAdvances (Int.le_refl _))
    fun first E' _ locals' hplaced' h => ?_
  refine h.meets_mark fun _ h => ?_
  refine ⟨E', locals', s.depth, hplaced', by omega, h.finish ?_⟩
  rintro Γ ⟨⟨⟨⟨-, htest⟩, -⟩, hfirst⟩, hother⟩
  exact .ifThen htest hfirst hother

theorem compilesStmt_ifElse (hc : c.Ok) (hcond : UsableAs c.engine c.analysis visible .int cond)
    (hyes : CompilesStmt c f ctx targets visible (.nested yes) visible (nested (stmt c f targets yes)))
    (hno : CompilesStmt c f ctx targets visible (.nested no) visible (nested (stmt c f targets no))) :
    CompilesStmt c f ctx targets visible (.stmt (.ifElse pos cond yes no)) visible
      (stmt c f targets (.ifElse pos cond yes no)) := by
  intro E s hok hplaced hin
  simp only [stmt, ends_bind, ends_pure]
  refine (Progress.start hok).meets_newLabel s.depth fun other _ _ h => ?_
  refine (compiles_expr hc hcond.toUsable hcond.typeOf).run h hplaced fun test _ _ h => ?_
  refine h.meets_jump rfl (h.label (.head _)) (Int.add_neg_cancel_right ..) fun _ h => ?_
  refine hyes.runNested h hplaced (hin.mono h.toAdvances (Int.le_refl _))
    fun first _ _ locals₁ hplaced₁ h => ?_
  refine h.meets_newLabel s.depth fun join _ _ h => ?_
  refine h.meets_jump rfl (h.label (.tail _ (.head _))) (Int.add_zero _) fun _ h => ?_
  refine h.meets_mark fun _ h => ?_
  refine hno.runNested h hplaced₁ (hin.mono h.toAdvances (Int.le_refl _))
    fun second E' _ locals' hplaced' h => ?_
  refine h.meets_mark fun _ h => ?_
  refine ⟨E', locals', s.depth, hplaced', by omega, h.finish ?_⟩
  rintro Γ ⟨⟨⟨⟨⟨⟨⟨-, htest⟩, -⟩, hfirst⟩, -⟩, hother⟩, hsecond⟩, hjoin⟩
  exact .ifElse htest hfirst hsecond hother hjoin

end Nested

/-! ## Loops -/

section Loops

variable {ctx : BodyContext} {targets : List JumpTarget} {body : Stmt}
  (hbody : ∀ target, CompilesStmt c f ctx.inLoop (target :: targets) visible (.nested body) visible
    (nested (stmt c f (target :: targets) body)))
include hbody

theorem meets_loopBody (h : Progress c E₀ s₀ pending marked ops known E s locals d)
    (hplaced : Placed c visible locals) (hin : Inside c.analysis f ctx targets E s.nextLabel d)
    {again : Label} (hleave : (leave, d) ∈ pending ++ marked) (hagain : (again, d) ∈ pending ++ marked)
    (k : ∀ ops' E' s' locals', Placed c visible locals' → Progress c E₀ s₀ pending marked (ops ++ ops')
      (fun Γ => known Γ ∧ StmtCode Γ f (⟨leave, some again, d⟩ :: targets) (.nested body) ⟨locals, d⟩
        ops' ⟨locals', d⟩) E' s' locals' d → Q ops' s') :
    Ends Overflows (loopBody targets leave again fun targets => stmt c f targets body) s Q := by
  rw [loopBody, ends_bind]
  refine h.meets_depth ?_
  exact (hbody _).runNested h hplaced (hin.inLoop (h.label hleave) (h.label hagain)) k

theorem compilesStmt_while (hc : c.Ok) (hcond : UsableAs c.engine c.analysis visible .int cond) :
    CompilesStmt c f ctx targets visible (.stmt (.whileLoop pos cond body)) visible
      (stmt c f targets (.whileLoop pos cond body)) := by
  intro E s hok hplaced hin
  simp only [stmt, ends_bind, ends_pure]
  refine (Progress.start hok).meets_newLabel s.depth fun top _ _ h => ?_
  refine h.meets_newLabel s.depth fun leave _ _ h => ?_
  refine h.meets_mark fun _ h => ?_
  refine meets_exitUnless hc (by simpa using hcond) h hplaced (.head _) fun test _ _ h => ?_
  refine meets_loopBody hbody h hplaced (hin.mono h.toAdvances (Int.le_refl _)) (.head _)
    (.tail _ (.head _)) fun ops E' _ locals' hplaced' h => ?_
  refine h.meets_jump rfl (h.label (.tail _ (.head _))) (Int.add_zero _) fun _ h => ?_
  refine h.meets_mark fun _ h => ?_
  refine ⟨E', locals', s.depth, hplaced', by omega, h.finish ?_⟩
  rintro Γ ⟨⟨⟨⟨⟨-, htop⟩, htest⟩, hcode⟩, -⟩, hleave⟩
  exact .whileLoop htest hcode htop hleave

theorem compilesStmt_doWhile (hc : c.Ok) (hcond : UsableAs c.engine c.analysis visible .int cond) :
    CompilesStmt c f ctx targets visible (.stmt (.doWhile pos body cond)) visible
      (stmt c f targets (.doWhile pos body cond)) := by
  intro E s hok hplaced hin
  simp only [stmt, ends_bind, ends_pure]
  refine (Progress.start hok).meets_newLabel s.depth fun top _ _ h => ?_
  refine h.meets_newLabel s.depth fun next _ _ h => ?_
  refine h.meets_newLabel s.depth fun leave _ _ h => ?_
  refine h.meets_mark fun _ h => ?_
  refine meets_loopBody hbody h hplaced (hin.mono h.toAdvances (Int.le_refl _))
    (.tail _ (.head _)) (.head _)
    fun ops _ _ locals' hplaced' h => ?_
  refine h.meets_mark fun _ h => ?_
  refine (compiles_expr hc hcond.toUsable hcond.typeOf).run h hplaced' fun test E' _ h => ?_
  refine h.meets_jump rfl (h.label (.tail _ (.tail _ (.head _))))
    (Int.add_neg_cancel_right ..) fun _ h => ?_
  refine h.meets_mark fun _ h => ?_
  refine ⟨E', locals', s.depth, hplaced', by omega, h.finish ?_⟩
  rintro Γ ⟨⟨⟨⟨⟨⟨-, htop⟩, hcode⟩, hnext⟩, htest⟩, -⟩, hleave⟩
  exact .doWhile hcode htest htop hnext hleave

theorem compilesStmt_for (hc : c.Ok) {init cond step : Option Expr}
    (hinit : ∀ e ∈ init, Usable c.engine c.analysis visible e)
    (hcond : ∀ e ∈ cond, UsableAs c.engine c.analysis visible .int e)
    (hstep : ∀ e ∈ step, Usable c.engine c.analysis visible e) :
    CompilesStmt c f ctx targets visible (.stmt (.forLoop pos init cond step body)) visible
      (stmt c f targets (.forLoop pos init cond step body)) := by
  intro E s hok hplaced hin
  simp only [stmt, ends_bind, ends_pure]
  refine meets_optional hc hinit (Progress.start hok) hplaced fun before _ _ h => ?_
  refine h.meets_newLabel s.depth fun top _ _ h => ?_
  refine h.meets_newLabel s.depth fun next _ _ h => ?_
  refine h.meets_newLabel s.depth fun leave _ _ h => ?_
  refine h.meets_mark fun _ h => ?_
  refine meets_exitUnless hc hcond h hplaced (.tail _ (.head _)) fun test _ _ h => ?_
  refine meets_loopBody hbody h hplaced (hin.mono h.toAdvances (Int.le_refl _))
    (.tail _ (.head _)) (.head _)
    fun ops _ _ locals' hplaced' h => ?_
  refine h.meets_mark fun _ h => ?_
  refine meets_optional hc hstep h hplaced' fun onward E' _ h => ?_
  refine h.meets_jump rfl (h.label (.tail _ (.tail _ (.head _)))) (Int.add_zero _) fun _ h => ?_
  refine h.meets_mark fun _ h => ?_
  refine ⟨E', locals', s.depth, hplaced', by omega, h.finish ?_⟩
  rintro Γ ⟨⟨⟨⟨⟨⟨⟨⟨-, hbefore⟩, htop⟩, htest⟩, hcode⟩, hnext⟩, honward⟩, -⟩, hleave⟩
  exact .forLoop hbefore htest hcode honward htop hnext hleave

end Loops

/-! ## Switches -/

section Switch

variable {ctx : BodyContext} {targets : List JumpTarget} {E₀ E : Depths} {s₀ s : GenState}
  {pending marked : List (Label × Int)} {ops : List Op} {known : CodeEnv → Prop}
  {locals : List (VarId × Int)} {d : Int}

def caseLabels (d : Int) (labels : List (Option Label)) : List (Label × Int) :=
  labels.filterMap fun label => label.map fun l => (l, d)

def Aligned (labels : List (Option Label)) (ss : List Stmt) : Prop :=
  labels.map Option.isSome = ss.map Stmt.isLabel

theorem dispatch_of_not_label {pair : UInt8} {st : Stmt} (h : st.isLabel = false) (rest : List Stmt) :
    dispatch c pair (st :: rest) = (do
      let (ops, labels, other) ← dispatch c pair rest
      return (ops, none :: labels, other)) := by
  cases st with
  | caseLabel | defaultLabel => cases h
  | _ => rfl

theorem effect?_switchPair (type : Ty) :
    (Instr.binary Opcode.equal (switchPair type)).effect? = some (-cellSize) := by
  unfold switchPair
  split <;> rfl

theorem meets_dispatch (htype : type = .int ∨ type = .string) {outer : List VarId}
    (hss : SwitchOk c.engine c.analysis ctx type outer visible ss) (hc : c.Ok)
    (h : Progress c E₀ s₀ pending marked ops known E s locals d)
    {Q : List Op × List (Option Label) × Option Label → GenState → Prop}
    (k : ∀ ops' labels other E' s', Aligned labels ss →
      (∀ label, other = some label → (label, d) ∈ caseLabels d labels) →
      Progress c E₀ s₀ (pending ++ caseLabels d labels) marked (ops ++ ops')
        (fun Γ => known Γ ∧ DispatchCode Γ (switchPair type) d ss ops' labels other) E' s' locals d →
      Q (ops', labels, other) s') : Ends Overflows (dispatch c (switchPair type) ss) s Q := by
  induction ss generalizing visible pending ops known E s Q with
  | nil =>
    rw [dispatch, ends_pure]
    refine k [] [] none E s rfl (by simp) ?_
    simpa [caseLabels] using (h.line marks_nil).weaken fun Γ hknown => ⟨hknown, DispatchCode.nil⟩
  | cons st rest ih =>
    by_cases hlabel : st.isLabel = true
    · cases st with
      | caseLabel pos e =>
        obtain ⟨⟨-, hcase⟩, hrest⟩ := switchOk_caseLabel.mp hss
        obtain ⟨v, hv⟩ := isSome_iff_exists.mp hcase.constant
        have hv' : c.analysis.consts.get? e.id = some v := hv
        have hsize : c.analysis.sizeOf v.type = cellSize := by
          have hvt := Option.some.inj ((hc.value_type hcase.toUsable hv).symm.trans hcase.typeOf)
          rw [hvt]
          rcases htype with rfl | rfl <;> rfl
        simp only [dispatch, hv', orFault, ends_bind, ends_pure]
        refine h.meets_newLabel d fun label _ _ h => ?_
        refine h.meets_duplicate fun _ h => ?_
        refine h.meets_constant fun _ h => ?_
        rw [hsize] at h
        refine h.meets_emit (effect?_switchPair type) (Int.add_neg_cancel_right ..) fun _ h => ?_
        refine h.meets_jump rfl (h.label (p := (label, d)) (by simp)) (Int.add_neg_cancel_right ..)
          fun _ h => ?_
        refine ih hrest h fun ops' labels other E' s' hal hother h => ?_
        refine k _ (some label :: labels) other E' s' ?_ ?_ ?_
        · simpa [Aligned, Stmt.isLabel] using hal
        · intro l hl
          exact .tail _ (hother l hl)
        · have hlabels : pending ++ caseLabels d (some label :: labels) =
              pending ++ [(label, d)] ++ caseLabels d labels := by
            simp [caseLabels]
          rw [hlabels]
          simp only [← append_assoc] at h ⊢
          refine h.withCtx.weaken ?_
          rintro Γ ⟨rfl, ⟨hknown, hdepth⟩, hcode⟩
          exact ⟨hknown, .caseLabel hv hsize hdepth hcode⟩
      | defaultLabel pos =>
        obtain ⟨-, hrest⟩ := switchOk_defaultLabel.mp hss
        simp only [dispatch, ends_bind, ends_pure]
        refine h.meets_newLabel d fun label _ _ h => ?_
        refine ih hrest h fun ops' labels other E' s' hal hother h => ?_
        refine k ops' (some label :: labels) (other.or (some label)) E' s' ?_ ?_ ?_
        · simpa [Aligned, Stmt.isLabel] using hal
        · intro l hl
          cases other with
          | none =>
            cases hl
            exact .head _
          | some l' => exact .tail _ (hother l hl)
        · have hlabels : pending ++ caseLabels d (some label :: labels) =
              pending ++ [(label, d)] ++ caseLabels d labels := by
            simp [caseLabels]
          rw [hlabels]
          refine (h.withLabel (p := (label, d)) (by simp)).weaken ?_
          rintro Γ ⟨⟨hknown, hcode⟩, hdepth⟩
          exact ⟨hknown, .defaultLabel hdepth hcode⟩
      | _ => cases hlabel
    · have hnot : st.isLabel = false := Bool.eq_false_iff.mpr hlabel
      obtain ⟨-, hrest⟩ := (switchOk_stmt hnot).mp hss
      simp only [dispatch_of_not_label hnot, ends_bind, ends_pure]
      refine ih hrest h fun ops' labels other E' s' hal hother h => ?_
      refine k ops' (none :: labels) other E' s' ?_ hother ?_
      · simpa [Aligned, hnot] using hal
      · refine h.weaken ?_
        rintro Γ ⟨hknown, hcode⟩
        exact ⟨hknown, .stmt hnot hcode⟩

/-- The body of a switch whose tests are at the depth `base`. At a label no variable of the switch is
visible, so the depth there is `base` again. -/
theorem meets_switchBody (hc : c.Ok) {outer : List VarId} {base d₀ : Int}
    (hss : SwitchOk c.engine c.analysis ctx.inSwitch type outer visible ss)
    (hstmts : ∀ st ∈ ss, ∀ visible, StmtOk c.engine c.analysis ctx.inSwitch visible st →
      CompilesStmt c f ctx.inSwitch (⟨leave, none, base⟩ :: targets) visible (.stmt st)
        (st.opens c.analysis visible) (stmt c f (⟨leave, none, base⟩ :: targets) st))
    {labels : List (Option Label)} (hal : Aligned labels ss)
    (h : Progress c E₀ s₀ (caseLabels base labels ++ pending) marked ops known E s locals d)
    (hplaced : Placed c visible locals) (hin : Inside c.analysis f ctx targets E₀ s₀.nextLabel d₀)
    (hbase : d₀ ≤ base) (hleave : (leave, base) ∈ pending) (hsuffix : outer <:+ visible)
    (hd : d = base + (extent c.analysis visible - extent c.analysis outer))
    (k : ∀ ops' E' s' marked' locals' d', Placed c (opensAll c.analysis visible ss) locals' →
      d' = d + (extent c.analysis (opensAll c.analysis visible ss) - extent c.analysis visible) →
      Progress c E₀ s₀ pending marked' (ops ++ ops') (fun Γ => known Γ ∧
        StmtCode Γ f (⟨leave, none, base⟩ :: targets) (.switchBody labels ss) ⟨locals, d⟩ ops'
          ⟨locals', d'⟩) E' s' locals' d' → Q ops' s') :
    Ends Overflows (switchBody c f (⟨leave, none, base⟩ :: targets) labels ss) s Q := by
  induction ss generalizing visible labels ops known E s marked locals d Q with
  | nil =>
    rw [switchBody, ends_pure]
    have hlabels : labels = [] := by simpa [Aligned] using hal
    subst hlabels
    refine k [] E s marked locals d hplaced (by simp [opensAll]) ?_
    exact (h.line marks_nil).weaken fun Γ hknown => ⟨hknown, .noCases⟩
  | cons st rest ih =>
    have hrestStmts := fun st hst => hstmts st (.tail _ hst)
    have hext := extent_le hc hsuffix
    cases labels with
    | nil => simp [Aligned] at hal
    | cons head labels =>
      obtain ⟨hhead, htail⟩ := List.cons.inj hal
      rw [switchBody]
      simp only [head?_cons, tail_cons, ends_bind, ends_pure, join_some]
      cases head with
      | some label =>
        have hlabel : st.isLabel = true := hhead.symm
        have hrest : visible = outer ∧ st.opens c.analysis visible = visible ∧
            SwitchOk c.engine c.analysis ctx.inSwitch type outer visible rest := by
          cases st with
          | caseLabel pos e =>
            obtain ⟨⟨hvis, -⟩, hrest⟩ := switchOk_caseLabel.mp hss
            exact ⟨hvis, rfl, hrest⟩
          | defaultLabel pos =>
            obtain ⟨⟨hvis, -⟩, hrest⟩ := switchOk_defaultLabel.mp hss
            exact ⟨hvis, rfl, hrest⟩
          | _ => cases hlabel
        obtain ⟨rfl, hopens, hrest⟩ := hrest
        have hopensAll : opensAll c.analysis visible (st :: rest) =
            opensAll c.analysis visible rest := by
          rw [opensAll, foldl_cons, hopens]
          rfl
        obtain rfl : d = base := by omega
        rw [markOr]
        refine h.meets_mark fun _ h => ?_
        refine ih hrest hrestStmts htail h hplaced hsuffix hd fun ops' E' s' marked' locals' d' hp hd' h => ?_
        refine k _ E' s' marked' locals' d' (by rw [hopensAll]; exact hp) (by rw [hopensAll]; exact hd') ?_
        rw [← append_assoc]
        refine h.weaken ?_
        rintro Γ ⟨⟨hknown, hdepth⟩, hcode⟩
        exact ⟨hknown, .label hlabel hdepth hcode⟩
      | none =>
        have hlabel : st.isLabel = false := hhead.symm
        obtain ⟨hst, hrest⟩ := (switchOk_stmt hlabel).mp hss
        have hsuffix' := hsuffix.trans (suffix_opens c.analysis visible st)
        have hin' : Inside c.analysis f ctx.inSwitch (⟨leave, none, base⟩ :: targets) E s.nextLabel d :=
          ((hin.mono h.toAdvances hbase).inSwitch
            (h.label (mem_append_left _ (mem_append_right _ hleave)))).deeper (by omega)
        rw [markOr]
        refine (hstmts st (.head _) visible hst).run h hplaced hin'
          fun first E₁ s₁ locals₁ d₁ hplaced₁ hd₁ h => ?_
        refine ih hrest hrestStmts htail h hplaced₁ hsuffix' (by omega)
          fun ops' E' s' marked' locals' d' hp hd' h => ?_
        refine k _ E' s' marked' locals' d' hp ?_ ?_
        · rw [hd', hd₁]
          show _ = d + (extent c.analysis (opensAll c.analysis (st.opens c.analysis visible) rest) - _)
          omega
        · rw [← append_assoc]
          refine h.weaken ?_
          rintro Γ ⟨⟨hknown, hfirst⟩, hcode⟩
          exact ⟨hknown, .case hlabel hfirst hcode⟩

theorem compilesStmt_switch (hc : c.Ok) {value : Expr}
    (hvalue : UsableAs c.engine c.analysis visible type value) (htype : type = .int ∨ type = .string)
    (hss : SwitchOk c.engine c.analysis ctx.inSwitch type visible visible ss)
    (hstmts : ∀ target, ∀ st ∈ ss, ∀ visible, StmtOk c.engine c.analysis ctx.inSwitch visible st →
      CompilesStmt c f ctx.inSwitch (target :: targets) visible (.stmt st)
        (st.opens c.analysis visible) (stmt c f (target :: targets) st)) :
    CompilesStmt c f ctx targets visible (.stmt (.switch pos value ss)) visible
      (switch c f value ss fun target labels => switchBody c f (target :: targets) labels ss) := by
  intro E s hok hplaced hin
  have ht : c.analysis.types.get? value.id = some type := hvalue.typeOf
  have hsize : c.analysis.sizeOf type = cellSize := by rcases htype with rfl | rfl <;> rfl
  have hsuffix := suffix_opensAll c.analysis visible ss
  have hext := extent_le hc hsuffix
  simp only [switch, typeOf, ht, orFault, ends_bind, ends_pure]
  refine (compiles_expr hc hvalue.toUsable hvalue.typeOf).run (Progress.start hok) hplaced
    fun push _ _ h => ?_
  rw [hsize] at h
  refine h.meets_depth ?_
  refine h.meets_newLabel (s.depth + cellSize) fun leave _ _ h => ?_
  refine meets_dispatch htype hss hc h fun tests labels other _ _ hal hother h => ?_
  -- The labels are marked in the body, the way out behind it.
  have hperm : (caseLabels (s.depth + cellSize) labels ++ [(leave, s.depth + cellSize)]).Perm
      ([] ++ [(leave, s.depth + cellSize)] ++ caseLabels (s.depth + cellSize) labels) :=
    perm_append_comm
  replace h := h.perm hperm
  have hgoal : (other.getD leave, s.depth + cellSize) ∈
      caseLabels (s.depth + cellSize) labels ++ [(leave, s.depth + cellSize)] := by
    cases other with
    | none => exact mem_append_right _ (mem_singleton_self _)
    | some label => exact mem_append_left _ (hother label rfl)
  refine h.meets_jump rfl (h.label (mem_append_left _ hgoal)) (Int.add_zero _) fun _ h => ?_
  have hcell : s.depth ≤ s.depth + cellSize := Int.le_add_of_nonneg_right (by decide)
  refine meets_switchBody hc hss (hstmts _) hal h hplaced hin hcell (mem_singleton_self _)
    suffix_rfl (by omega) fun ops E' _ marked' locals' d' hplaced' hd' h => ?_
  refine h.meets_popTo (by omega) fun hpop _ h => ?_
  refine h.meets_mark fun _ h => ?_
  refine h.meets_moveSp (Int.add_neg_cancel_right ..) fun _ _ _ h => ?_
  refine ⟨E', locals', s.depth, placed_of_suffix hplaced' hsuffix, by omega, h.finish ?_⟩
  rintro Γ ⟨⟨⟨⟨⟨rfl, hpush⟩, htests⟩, hskip⟩, hbody⟩, hleave⟩
  exact .switch (m := ⟨s.locals, s.depth⟩) hvalue.typeOf hpush htests hskip hbody hpop hleave

end Switch

/-! ## Statements -/

theorem compilesStmt_stmts (hc : c.Ok) (hss : BlockOk c.engine c.analysis ctx visible ss)
    (hstmts : ∀ st ∈ ss, ∀ visible, StmtOk c.engine c.analysis ctx visible st →
      CompilesStmt c f ctx targets visible (.stmt st) (st.opens c.analysis visible)
        (stmt c f targets st)) :
    CompilesStmt c f ctx targets visible (.stmts ss) (opensAll c.analysis visible ss)
      (stmts c f targets ss) := by
  induction ss generalizing visible with
  | nil =>
    intro E s hok hplaced _
    rw [stmts, ends_pure]
    exact ⟨E, s.locals, s.depth, hplaced, by simp [opensAll],
      (Progress.start hok).weaken fun Γ _ => .noStmts⟩
  | cons st rest ih =>
    rw [BlockOk] at hss
    obtain ⟨hst, hrest⟩ := hss
    have hext := extent_le hc (suffix_opens c.analysis visible st)
    intro E s hok hplaced hin
    simp only [stmts, ends_bind, ends_pure]
    refine (hstmts st (.head _) visible hst).run (Progress.start hok) hplaced hin
      fun first _ _ locals₁ d₁ hplaced₁ hd₁ h => ?_
    refine (ih hrest fun st hst => hstmts st (.tail _ hst)).run h hplaced₁
      (hin.mono h.toAdvances (by omega)) fun ops E' _ locals' d' hplaced' hd' h => ?_
    have hopens : opensAll c.analysis visible (st :: rest) =
        opensAll c.analysis (st.opens c.analysis visible) rest := rfl
    refine ⟨E', locals', d', hplaced', by rw [hopens]; omega, h.finish ?_⟩
    rintro Γ ⟨⟨-, hfirst⟩, hcode⟩
    exact .stmts hfirst hcode

theorem compiles_stmt (hc : c.Ok) (st : Stmt) (hst : StmtOk c.engine c.analysis ctx visible st) :
    CompilesStmt c f ctx targets visible (.stmt st) (st.opens c.analysis visible)
      (stmt c f targets st) := by
  have hnested {st : Stmt} {ctx : BodyContext} {targets : List JumpTarget} {visible : List VarId}
      (h : CompilesStmt c f ctx targets visible (.stmt st) (st.opens c.analysis visible)
        (stmt c f targets st)) :
      CompilesStmt c f ctx targets visible (.nested st) visible (nested (stmt c f targets st)) :=
    h.nested hc (suffix_opens ..) .nested
  induction st using Stmt.inductionOn generalizing visible ctx targets with rw [StmtOk] at hst
  | block pos body ih =>
    rw [stmt]
    exact (compilesStmt_stmts hc hst fun st hmem _ hst => ih st hmem hst).nested hc
      (suffix_opensAll ..) .block
  | var pos decl =>
    rw [stmt]
    intro E s hok hplaced hin
    refine (compilesStmt_vars hc hst E s hok hplaced hin).mono ?_
    rintro ops s' ⟨E', locals', d', hplaced', hd', h⟩
    exact ⟨E', locals', d', hplaced', hd', h.weaken fun Γ hcode => .var hcode⟩
  | expr pos e =>
    rw [stmt]
    exact compilesStmt_expr hc hst
  | ifThen pos cond yes ih => exact compilesStmt_ifThen hc hst.1 (hnested (ih hst.2))
  | ifElse pos cond yes no ihy ihn =>
    exact compilesStmt_ifElse hc hst.1 (hnested (ihy hst.2.1)) (hnested (ihn hst.2.2))
  | whileLoop pos cond body ih =>
    exact compilesStmt_while (fun target => hnested (ih hst.2)) hc hst.1
  | doWhile pos body cond ih =>
    exact compilesStmt_doWhile (fun target => hnested (ih hst.1)) hc hst.2
  | forLoop pos init cond next body ih =>
    obtain ⟨hinit, hcond, hnext, hbody⟩ := hst
    exact compilesStmt_for (fun target => hnested (ih hbody)) hc hinit hcond hnext
  | switch pos value body ih =>
    rw [stmt]
    obtain ⟨type, hvalue, htype, hbody⟩ := hst
    exact compilesStmt_switch hc hvalue htype hbody fun target st hmem _ hst => ih st hmem hst
  | caseLabel pos label =>
    exact hst.elim
  | defaultLabel pos =>
    exact hst.elim
  | ret pos value =>
    rw [stmt]
    exact compilesStmt_ret hc hst
  | breakOut pos =>
    intro E s hok hplaced hin
    cases targets with
    | nil => exact absurd rfl (hin.breakable hst)
    | cons target targets => exact compilesStmt_breakOut E s hok hplaced hin
  | continueLoop pos =>
    intro E s hok hplaced hin
    obtain ⟨⟨label, at_⟩, htarget⟩ := hin.loop hst
    rw [stmt, htarget]
    exact compilesStmt_continueLoop htarget E s hok hplaced hin
  | empty pos =>
    rw [stmt]
    exact compilesStmt_empty

theorem compiles_block (hc : c.Ok) {body : List Stmt}
    (hbody : BlockOk c.engine c.analysis ctx visible body) (pos : Pos) :
    CompilesStmt c f ctx [] visible (.stmt (.block pos body)) visible (block c f body) :=
  (compilesStmt_stmts hc hbody fun st _ _ hst => compiles_stmt hc st hst).nested hc
    (suffix_opensAll ..) .block

end Gen
end Nwscript
