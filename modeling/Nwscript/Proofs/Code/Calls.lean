import Nwscript.Proofs.Code.Balance

/-! # The calling convention

A call reserves the cells of the result and pushes the arguments, the last one first. The routine that is
called finds them below its frame: what the caller pushes for a parameter are the bytes that the routine
takes for it, and a return writes the bytes that the caller reserved. -/

namespace Nwscript

open Gen

/-! ## Callers and callees -/

/-- Arguments, or the defaults of those that are left out, are pushed where a routine whose frame begins
at a depth has the slots of its parameters. -/
inductive ArgsAt (Γ : CodeEnv) (f : Frame) (locals : List (VarId × Int)) (top : Int) :
    List FuncParam → List Expr → List (VarId × Int) → Int → List Op → Int → Prop where
  | nil {d} : ArgsAt Γ f locals top [] [] [] d [] d
  | default {p params v var info slots d d₁ later} :
      p.default = some v → v.type = p.type → Γ.ctx.analysis.vars[var]? = some info →
      info.type = p.type → ArgsAt Γ f locals top params [] slots d later d₁ →
      ArgsAt Γ f locals top (p :: params) [] ((var, d₁ - top) :: slots) d (later ++ constantOps v)
        (d₁ + Γ.ctx.analysis.sizeOf info.type)
  | arg {p params arg args var info slots d d₁ later value} :
      ExprCode Γ f locals (.expr arg) d₁ value (d₁ + Γ.ctx.analysis.sizeOf info.type) →
      Γ.ctx.analysis.vars[var]? = some info → info.type = p.type →
      ArgsAt Γ f locals top params args slots d later d₁ →
      ArgsAt Γ f locals top (p :: params) (arg :: args) ((var, d₁ - top) :: slots) d (later ++ value)
        (d₁ + Γ.ctx.analysis.sizeOf info.type)

theorem ExprCode.argsAt {Γ : CodeEnv} {f : Frame} {locals : List (VarId × Int)} {qs : List FuncParam}
    {args : List Expr} {d d₁ : Int} {ops : List Op}
    (h : ExprCode Γ f locals (.userArgs qs args) d ops d₁) {ps : List Param}
    {slots : List (VarId × Int)} {bottom bottom' top : Int}
    (hslots : ParamSlots Γ.ctx.analysis bottom ps slots bottom') {visible inner : List VarId}
    (hparams : ParamsOk Γ.ctx.analysis visible ps qs inner) (htop : d₁ - top = bottom) :
    ArgsAt Γ f locals top qs args slots d ops d₁ ∧ d - top = bottom' := by
  induction hslots generalizing qs args d d₁ ops visible with
  | nil =>
    cases qs with
    | nil =>
      cases h with
      | noArgs => exact ⟨.nil, htop⟩
    | cons q qs => cases hparams
  | @cons bottom bottom' p ps var info slots hdecl hinfo _ _ ih =>
    cases qs with
    | nil => cases hparams
    | cons q qs =>
      obtain ⟨var', info', hdecl', -, hinfo', htype, -, hrest⟩ := hparams
      cases hdecl.symm.trans hdecl'
      cases hinfo.symm.trans hinfo'
      cases h with
      | @default _ _ v _ d₂ later hv hvtype hlater =>
        rw [← htype] at htop ⊢
        have hslot : d₂ - top = bottom - Γ.ctx.analysis.sizeOf info.type := by omega
        obtain ⟨hargs, hd⟩ := ih hlater hrest hslot
        rw [← hslot]
        exact ⟨.default hv hvtype hinfo htype hargs, hd⟩
      | @arg _ _ _ _ _ d₂ later value hlater hvalue =>
        rw [← htype] at htop hvalue ⊢
        have hslot : d₂ - top = bottom - Γ.ctx.analysis.sizeOf info.type := by omega
        obtain ⟨hargs, hd⟩ := ih hlater hrest hslot
        rw [← hslot]
        exact ⟨.arg hvalue hinfo htype hargs, hd⟩

/-- A routine finds its parameters in slots below its frame, with the result below them. It pops the
parameters when it returns. -/
structure CalleeFrame (c : GenContext) (items : Program) (A : Assembly) (p : PlacedRoutine)
    (info : FuncInfo) (slots : List (VarId × Int)) (bottom : Int) : Prop where
  known : c.analysis.functions[p.func]? = some info
  code : ∃ decl body exit depth ops locals, items[p.index]? = some (.function decl body) ∧
    ParamSlots c.analysis 0 decl.params slots bottom ∧
    p.routine.ops = [Op.mark p.routine.label] ++ ops ++ [Op.mark exit] ++ popParams bottom ++
      [Op.instr .ret] ∧
    StmtCode ⟨c, A.func, depth⟩ (functionFrame c info bottom exit) [] (.stmt (.block decl.pos body))
      ⟨slots, 0⟩ ops ⟨locals, 0⟩ ∧
    Sites (fun own op => op = .jump .always exit →
      ReturnSite ⟨c, A.func, depth⟩ (functionFrame c info bottom exit) own) ops
  fits : Fits bottom

/-- A call of a function that agrees with its routine. Seen from the depth `top` at which the frame of the
routine begins, the cells for the result, which the call pushes at the depth `d`, are the slot of the
result, and the arguments lie in the slots of the parameters. -/
def AgreeingCall (c : GenContext) (items : Program) (A : Assembly) (own : List Op) (label : Label) :
    Prop :=
  ∃ (Γ : CodeEnv) (f : Frame) (locals : List (VarId × Int)) (node : Node) (name : String)
    (args : List Expr) (p : PlacedRoutine) (info : FuncInfo) (slots : List (VarId × Int))
    (bottom d top : Int) (pushed : List Op),
    Γ.ctx = c ∧ .call node name args ∈ items.exprs ∧
    c.analysis.calls.get? node.id = some (.user p.func) ∧ p ∈ A.functions ∧
    p.routine.label = label ∧ CalleeFrame c items A p info slots bottom ∧
    own = reserveOps (resultCells c.analysis info) ++ pushed ∧
    cellSize * (resultCells c.analysis info).length = c.analysis.sizeOf info.ret ∧
    d = top + (bottom - c.analysis.sizeOf info.ret) ∧
    ArgsAt Γ f locals top info.params args slots (d + c.analysis.sizeOf info.ret) pushed top

def CallLine (c : GenContext) (items : Program) (A : Assembly) (own : List Op) : Op → Prop
  | .jump .call label => AgreeingCall c items A own label
  | _ => True

section Program

variable {c : GenContext} {items : Program} {A : Assembly}

theorem MarkedCode.callee (h : MarkedCode c items A) (hc : c.Ok) {p : PlacedRoutine} (hp : p ∈ A.functions) :
    ∃ info slots bottom decl body visible, CalleeFrame c items A p info slots bottom ∧
      items[p.index]? = some (.function decl body) ∧ ParamSlots c.analysis 0 decl.params slots bottom ∧
      ParamsOk c.analysis [] decl.params info.params visible ∧
      ∃ Γ f, Γ.ctx = c ∧ Γ.func = A.func ∧ Sites (LineSite Γ f items.exprs) p.routine.ops := by
  have hmem : p.routine ∈ A.routines := List.mem_append_right _ (List.mem_map_of_mem hp)
  have hmarks := h.marks_nodup hmem
  obtain ⟨func, index, r⟩ := p
  cases h.functions _ hp with
  | @mk info decl body label exit slots bottom depth ops locals hinfo _ hitem hfunc _ hslots hexit
      hcode =>
    obtain ⟨visible, hparams, -⟩ := hfunc.scope
    have hsites := (@StmtCode.passage _ _ _ _ (fun _ => True) hc (fun _ _ _ _ => trivial) _ _ _ _ hcode
      (fun e he => parts_subset_of_item (List.mem_of_getElem? hitem) he) (by simp)
      (exit_not_mem_marks hmarks)).sites
    refine ⟨info, slots, bottom, decl, body, visible, ⟨hinfo, ⟨decl, body, exit, depth, ops, locals, hitem,
      hslots, rfl, hcode, hsites.mono ?_⟩, hslots.fits ⟨by decide, by decide⟩⟩, hitem, hslots, hparams,
      ⟨c, A.func, depth⟩, functionFrame c info bottom exit, rfl, rfl, ?_⟩
    · rintro own op hsite rfl
      exact hsite rfl
    · refine (((lineSite_mark.append hsites).append lineSite_mark).append ?_).append
        (lineSite_instr (by simp))
      unfold popParams
      split
      · exact lineSite_instr (by simp)
      · exact sites_nil

theorem MarkedCode.agrees (h : MarkedCode c items A) (hc : c.Ok) {Γ : CodeEnv} {f : Frame}
    (hctx : Γ.ctx = c) (hfunc : Γ.func = A.func) {own : List Op} {label : Label}
    (hsite : CallSite Γ f items.exprs own label) : AgreeingCall c items A own label := by
  obtain ⟨locals, node, name, args, func, info, d, top, pushed, hcall, hcallee, hinfo, hlabel, rfl,
    hpushed⟩ := hsite
  subst hctx
  rw [hfunc] at hlabel
  obtain ⟨p, hp, rfl, hpl⟩ := h.called func label hlabel
  obtain ⟨info', slots, bottom, decl, body, visible, hcal, -, hslots, hparams, -⟩ := h.callee hc hp
  cases hinfo.symm.trans hcal.known
  have hsize : cellSize * (resultCells Γ.ctx.analysis info).length = Γ.ctx.analysis.sizeOf info.ret :=
    Progress.size_resultCells hc info
  obtain ⟨hargs, hbottom⟩ := hpushed.argsAt hslots hparams (Int.sub_self top)
  refine ⟨Γ, f, locals, node, name, args, p, info, slots, bottom, d, top, pushed, rfl, hcall, hcallee, hp,
    hpl, hcal, rfl, hsize, by omega, ?_⟩
  rw [← hsize]
  exact hargs

/-- The result of a script that answers a question comes into the cell that the loader reserves. The
entry function finds this cell below its frame, or else the routine for the global variables copies the
result there: from the depth behind the call, the offset leads to the cell below the frame of that
routine. -/
structure EntryResult (c : GenContext) (items : Program) (A : Assembly) (e : EntryPoint)
    (label : Label) : Prop where
  callee : ∃ p info, p ∈ A.functions ∧ p.func = e.func ∧ p.routine.label = label ∧
    CalleeFrame c items A p info [] 0 ∧
    ∀ exit, (functionFrame c info 0 exit).result = some (-cellSize, cellSize)
  loader : A.loader.ops = [.mark A.start, .instr (.reserve TypeByte.int),
    .jump .call ((A.init.map Routine.label).getD label), .instr .ret]
  copied : ∀ r, A.init = some r → ∃ cells depth inits after offset,
    r.ops = [Op.mark r.label] ++ reserveOps cells ++ [Op.instr .saveBp] ++ inits ++
      [Op.instr (.reserve TypeByte.int), .jump .call label,
        .instr (.copyDown .stack offset (.ofInt cellSize)), .instr (.moveSp (.ofInt (-cellSize)))] ++
      after ∧
    InitsCode ⟨c, A.func, depth⟩ { exit := r.label } (cellSize * cells.length + cellSize)
      (globalDeclarators items) inits ∧
    cellSize * cells.length + cellSize + cellSize + offset.toInt = -cellSize

structure Convention (c : GenContext) (items : Program) (A : Assembly) : Prop where
  callees : ∀ p ∈ A.functions, ∃ info slots bottom, CalleeFrame c items A p info slots bottom
  calls : ∀ p ∈ A.functions, Sites (CallLine c items A) p.routine.ops
  inits : ∀ r, A.init = some r → ∃ before inits call after, r.ops = before ++ inits ++ call ++ after ∧
    Sites (CallLine c items A) (before ++ inits) ∧ EntryCode (c.globals.size + cellSize) A.entry call ∧
    ∀ label, .jump .call label ∉ after
  result : ∀ e label, A.entry = some (e, label) → e.kind = .startingConditional →
    EntryResult c items A e label

theorem MarkedCode.callLine (h : MarkedCode c items A) (hc : c.Ok) {Γ : CodeEnv} {f : Frame}
    (hctx : Γ.ctx = c) (hfunc : Γ.func = A.func) {ops : List Op}
    (hsites : Sites (LineSite Γ f items.exprs) ops) : Sites (CallLine c items A) ops := by
  refine hsites.mono fun own op hsite => ?_
  match op, hsite with
  | .jump .call label, hsite => exact h.agrees hc hctx hfunc hsite
  | .jump .always _, _ | .jump .ifZero _, _ | .jump .ifNonzero _, _ | .mark _, _ | .instr _, _ => trivial

theorem MarkedCode.entryResult (h : MarkedCode c items A) (hc : c.Ok)
    (hitems : ProgramOk c.engine c.analysis items) {e : EntryPoint} {label : Label}
    (hentry : A.entry = some (e, label)) (hkind : e.kind = .startingConditional) :
    EntryResult c items A e label where
  callee := by
    have he : c.analysis.entry = some e := by rw [← h.entry, hentry]; rfl
    obtain ⟨info, hinfo, -, hnone, hret⟩ := hitems.entry e he
    obtain ⟨p, hp, hpf, hpl⟩ := h.called e.func label (h.entryLabel e label hentry)
    obtain ⟨info', slots, bottom, decl, body, visible, hcallee, -, hslots, hparams, -⟩ := h.callee hc hp
    have hknown := hcallee.known
    rw [hpf, hinfo] at hknown
    cases hknown
    rw [hnone] at hparams
    generalize decl.params = params at hslots hparams
    cases params with
    | cons p ps => cases hparams
    | nil =>
      cases hslots
      refine ⟨p, info, hp, hpf, hpl, hcallee, fun exit => ?_⟩
      rw [hkind] at hret
      simp only [functionFrame, hret]
      rfl
  loader := by
    have hresult : loaderResult A.entry = [.instr (.reserve TypeByte.int)] := by
      rw [hentry, loaderResult]
      exact if_pos hkind
    have hcall : loaderCall A.entry (A.init.map Routine.label) =
        [Op.jump .call ((A.init.map Routine.label).getD label)] := by
      rw [hentry]
      cases A.init <;> rfl
    rw [Assembly.loader, hresult, hcall]
    rfl
  copied r hr := by
    cases h.init r hr with
    | @mk label' cells depth inits call hcells _ hfits hinits hcall =>
      rw [hentry] at hcall
      rw [← hcells] at hinits hcall
      cases hcall with
      | main hmain =>
        cases hkind.symm.trans hmain
      | startingConditional _ hoffset =>
        refine ⟨cells, depth, inits,
          [.instr .restoreBp, .instr (.moveSp (.ofInt (-c.globals.size))), .instr .ret], _, ?_, hinits,
          by rw [hoffset.toInt_ofInt]; omega⟩
        simp only [List.append_assoc, List.cons_append, List.nil_append]

theorem MarkedCode.keepsConvention (h : MarkedCode c items A) (hc : c.Ok)
    (hitems : ProgramOk c.engine c.analysis items) : Convention c items A where
  callees p hp := by
    obtain ⟨info, slots, bottom, -, -, -, hcallee, -⟩ := h.callee hc hp
    exact ⟨info, slots, bottom, hcallee⟩
  calls p hp := by
    obtain ⟨-, -, -, -, -, -, -, -, -, -, Γ, f, hctx, hfunc, hsites⟩ := h.callee hc hp
    exact h.callLine hc hctx hfunc hsites
  inits r hr := by
    have hmarks := h.marks_nodup (r := r) (by simp [Assembly.routines, hr])
    cases h.init r hr with
    | @mk label cells depth inits call hcells _ hfits hinits hcall =>
      have hsites := (@InitsCode.passage_globals _ _ _ _ _ (fun _ => True) _ _ _ _ hc (fun _ _ _ _ => trivial) hinits hmarks).sites
      refine ⟨[Op.mark label] ++ reserveOps cells ++ [Op.instr .saveBp], inits, call,
        [Op.instr .restoreBp] ++ [Op.instr (.moveSp (.ofInt (-c.globals.size)))] ++
          [Op.instr .ret], ?_, ?_,
        hcall, by simp⟩
      · simp only [List.append_assoc]
      · exact h.callLine hc rfl rfl
          (((lineSite_mark.append lineSite_reserveOps).append (lineSite_instr (by simp))).append hsites)
  result e label := h.entryResult hc hitems

end Program

/-- **Callers and callees agree on the calling convention** in the code of every program without
errors. -/
theorem Accepted.convention {engine : EngineTable} {program : Program} (h : Accepted engine program)
    (hsmall : (check engine program).analysis.structs.Small) {code : Code}
    (hcode : generate engine program (check engine program).analysis = .ok code) :
    ∃ A, code.routines = A.routines ∧ code.entry = A.entry.map Prod.snd ∧
      A.entry.map Prod.fst = (check engine program).analysis.entry ∧
      Convention (Accepted.context engine program) program A := by
  obtain ⟨A, hroutines, hentry, hA⟩ := h.markedCode hsmall hcode
  exact ⟨A, hroutines, hentry, hA.entry, hA.keepsConvention (h.contextOk hsmall) h.programOk⟩

theorem Accepted.convention_sample : ∃ code,
    generate Sample.engine Sample.program (check Sample.engine Sample.program).analysis = .ok code ∧
    ∃ A, code.routines = A.routines ∧ code.entry = A.entry.map Prod.snd ∧
      A.entry.map Prod.fst = (check Sample.engine Sample.program).analysis.entry ∧
      Convention (Accepted.context Sample.engine Sample.program) Sample.program A := by
  obtain ⟨code, hcode⟩ := Sample.generated
  exact ⟨code, hcode, Accepted.convention Sample.accepted Sample.small hcode⟩

end Nwscript
