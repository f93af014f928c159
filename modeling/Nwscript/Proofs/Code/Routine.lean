import Nwscript.Proofs.Code.Context

/-! # Code of routines

The routine of a function and the routine for the global variables. Each is generated on its own: the
depths of its labels start afresh, and only the labels of the functions are common to all. -/

open List

namespace Nwscript

open Gen

/-! ## The shape of routines -/

/-- The bottoms of parameters below the frame, and the bottom of all of them. -/
inductive ParamSlots (a : Analysis) : Int → List Param → List (VarId × Int) → Int → Prop where
  | nil {bottom} : ParamSlots a bottom [] [] bottom
  | cons {bottom bottom' p ps var info slots} :
      a.decls.get? p.node.id = some var → a.vars[var]? = some info →
      Fits (bottom - a.sizeOf info.type) →
      ParamSlots a (bottom - a.sizeOf info.type) ps slots bottom' →
      ParamSlots a bottom (p :: ps) ((var, bottom - a.sizeOf info.type) :: slots) bottom'

theorem result_functionFrame {c : GenContext} {info : FuncInfo} {bottom : Int} {exit : Label}
    {below size : Int} (h : (functionFrame c info bottom exit).result = some (below, size)) :
    below = bottom - size ∧ 0 < size ∧ size = c.analysis.sizeOf info.ret := by
  simp only [functionFrame] at h
  split at h
  · next hpos =>
    cases h
    exact ⟨rfl, hpos, rfl⟩
  · cases h

inductive FunctionCode (c : GenContext) (items : Program) (func : FuncId → Option Label) :
    FuncId → Nat → Routine → Prop where
  | mk {f index info decl body label exit slots bottom} {depth : Depths} {ops locals} :
      c.analysis.functions[f]? = some info → c.analysis.definition? f = some index →
      items[index]? = some (.function decl body) →
      FunctionOk c.engine c.analysis decl body info → func f = some label →
      ParamSlots c.analysis 0 decl.params slots bottom → depth exit = some 0 →
      StmtCode ⟨c, func, depth⟩ (functionFrame c info bottom exit) [] (.stmt (.block decl.pos body))
        ⟨slots, 0⟩ ops ⟨locals, 0⟩ →
      FunctionCode c items func f index
        ⟨info.name, label, [Op.mark label] ++ ops ++ [Op.mark exit] ++ popParams bottom ++
          [Op.instr .ret]⟩

inductive InitsCode (Γ : CodeEnv) (f : Frame) (d : Int) : List Declarator → List Op → Prop where
  | nil : InitsCode Γ f d [] []
  | plain {decl ds rest} :
      decl.init = none → InitsCode Γ f d ds rest → InitsCode Γ f d (decl :: ds) rest
  | init {decl ds e var info slot value rest} :
      decl.init = some e → Γ.ctx.analysis.decls.get? decl.node.id = some var →
      Γ.ctx.analysis.vars[var]? = some info →
      ExprCode Γ f [] (.expr e) d value (d + Γ.ctx.analysis.sizeOf info.type) →
      Addresses Γ.ctx [] (d + Γ.ctx.analysis.sizeOf info.type) var 0 slot →
      InitsCode Γ f d ds rest →
      InitsCode Γ f d (decl :: ds)
        (value ++ [storeOp Γ.ctx slot (d + Γ.ctx.analysis.sizeOf info.type) 0
          (Γ.ctx.analysis.sizeOf info.type)] ++
        [Op.instr (.moveSp (.ofInt (-Γ.ctx.analysis.sizeOf info.type)))] ++ rest)

inductive EntryCode (d : Int) : Option (EntryPoint × Label) → List Op → Prop where
  | none : EntryCode d none []
  | main {e label} :
      e.kind = .main → EntryCode d (some (e, label)) [.jump .call label]
  | startingConditional {e label} :
      e.kind = .startingConditional → Fits (-cellSize - (d + cellSize)) →
      EntryCode d (some (e, label))
        ([Op.instr (.reserve TypeByte.int)] ++ [Op.jump .call label] ++
          [Op.instr (.copyDown .stack (.ofInt (-cellSize - (d + cellSize))) (.ofInt cellSize))] ++
          [Op.instr (.moveSp (.ofInt (-cellSize)))])

inductive GlobalsCode (c : GenContext) (items : Program) (func : FuncId → Option Label)
    (entry : Option (EntryPoint × Label)) : Routine → Prop where
  | mk {label : Label} {cells : List UInt8} {depth : Depths} {inits call : List Op} :
      cellSize * cells.length = c.globals.size →
      extent c.analysis (declaredVars c.analysis (globalDeclarators items)) = c.globals.size →
      Fits (-c.globals.size) →
      InitsCode ⟨c, func, depth⟩ { exit := label } (c.globals.size + cellSize)
        (globalDeclarators items) inits →
      EntryCode (c.globals.size + cellSize) entry call →
      GlobalsCode c items func entry
        ⟨globalsName, label, [Op.mark label] ++ reserveOps cells ++ [Op.instr .saveBp] ++
          inits ++ call ++
          [Op.instr .restoreBp] ++ [Op.instr (.moveSp (.ofInt (-c.globals.size)))] ++
            [Op.instr .ret]⟩

/-! ## Between routines -/

def GenState.Between (a : Analysis) (s : GenState) : Prop :=
  GenState.Ok a (fun _ => none) { s with labelDepths := [] }

theorem GenState.Between.start {a : Analysis} {s : GenState} (h : s.Between a)
    (locals : List (VarId × Int)) :
    GenState.Ok a (fun _ => none) { s with depth := 0, locals, labelDepths := [] } :=
  ⟨by simp, h.funcLabels, h.funcsNodup, h.defined⟩

structure Finished (a : Analysis) (s s' : GenState) : Prop where
  idle : s'.Between a
  funcs : ∃ new, s'.funcLabels = new ++ s.funcLabels

def Extends (func : FuncId → Option Label) (s : GenState) : Prop :=
  ∀ f label, s.funcLabels.lookup f = some label → func f = some label

namespace Finished

variable {a : Analysis} {s s' s'' : GenState}

theorem refl (h : s.Between a) : Finished a s s := ⟨h, [], rfl⟩

theorem trans (h : Finished a s s') (h' : Finished a s' s'') : Finished a s s'' := by
  obtain ⟨new, hf⟩ := h.funcs
  obtain ⟨new', hf'⟩ := h'.funcs
  exact ⟨h'.idle, new' ++ new, by rw [hf', hf, append_assoc]⟩

theorem newLabel (h : s.Between a) : Finished a s { s with nextLabel := s.nextLabel + 1 } := by
  refine ⟨⟨by simp, fun p hp => ?_, h.funcsNodup, h.defined⟩, [], rfl⟩
  exact ⟨Nat.lt_succ_of_lt (h.funcLabels p hp).1, rfl⟩

theorem extends_of (h : Finished a s s') {func : FuncId → Option Label} (hf : Extends func s') :
    Extends func s := by
  intro f label hl
  obtain ⟨new, heq⟩ := h.funcs
  have hnodup := h.idle.funcsNodup
  refine hf f label ?_
  simp only [heq] at hnodup ⊢
  exact lookup_append_of_nodup hnodup hl

end Finished

theorem Progress.finished {c : GenContext} {E : Depths} {s s' : GenState} {marked : List (Label × Int)}
    {ops : List Op} {known : CodeEnv → Prop} {start locals : List (VarId × Int)} {d : Int}
    (h : Progress c (fun _ => none) { s with depth := 0, locals := start, labelDepths := [] } []
      marked ops known E s' locals d) : Finished c.analysis s s' := by
  obtain ⟨new, hf, -⟩ := h.funcs
  refine ⟨⟨by simp, fun p hp => ?_, h.ok.funcsNodup, h.ok.defined⟩, new, hf⟩
  exact ⟨(h.ok.funcLabels p hp).1, rfl⟩

/-! ## Functions -/

namespace Gen

variable {c : GenContext} {s : GenState}

theorem meets_paramSlots {visible inner : List VarId} {ps : List Param} {qs : List FuncParam}
    (hps : ParamsOk c.analysis visible ps qs inner) (hqs : ∀ q ∈ qs, c.analysis.Storable q.type)
    {bottom : Int} {Q : List (VarId × Int) × Int → GenState → Prop}
    (k : ∀ slots bottom', ParamSlots c.analysis bottom ps slots bottom' →
      (∀ var ∈ inner, var ∈ visible ∨ ∃ info at_, c.analysis.vars[var]? = some info ∧
        c.analysis.Storable info.type ∧ slots.lookup var = some at_) → Q (slots, bottom') s) :
    Ends Overflows (paramSlots c bottom ps) s Q := by
  induction ps generalizing visible qs bottom Q with
  | nil =>
    cases qs with
    | nil =>
      obtain rfl : inner = visible := hps
      exact k [] bottom .nil fun var hvar => .inl hvar
    | cons q qs => exact hps.elim
  | cons p ps ih =>
    cases qs with
    | nil => exact hps.elim
    | cons q qs =>
      obtain ⟨var, info, hdecl, -, hinfo, htype, -, hrest⟩ := hps
      have hstorable : c.analysis.Storable info.type := htype ▸ hqs q (.head _)
      simp only [paramSlots, declVar, varInfo, hdecl, hinfo, orFault, ends_bind, ends_pure, meets_fit]
      intro hfits
      refine ih hrest (fun q hq => hqs q (.tail _ hq)) fun slots bottom' hslots hplaced => ?_
      refine k _ bottom' (.cons hdecl hinfo hfits hslots) fun other hother => ?_
      by_cases heq : other = var
      · subst heq
        exact .inr ⟨info, _, hinfo, hstorable, lookup_cons_self⟩
      · have hne : (other == var) = false := by simpa using heq
        rw [lookup_cons, hne]
        exact (hplaced other hother).imp_left fun h => (mem_cons.mp h).resolve_left heq

theorem meets_function (hc : c.Ok) {items : Program} {func : FuncId} {info : FuncInfo} {index : Nat}
    {decl : FunctionDecl} {body : List Stmt} {label : Label} (hs : s.Between c.analysis)
    (hinfo : c.analysis.functions[func]? = some info)
    (hindex : c.analysis.definition? func = some index)
    (hitem : items[index]? = some (.function decl body))
    (hfunc : FunctionOk c.engine c.analysis decl body info)
    (hlabel : s.funcLabels.lookup func = some label) {Q : Routine → GenState → Prop}
    (k : ∀ r s' added, Finished c.analysis s s' →
      (s'.funcLabels.map Prod.fst).reverse = (s.funcLabels.map Prod.fst).reverse ++ added →
      s'.queue = s.queue ++ added → r.label = label →
      (∀ funcs, Extends funcs s' → FunctionCode c items funcs func index r) → Q r s') :
    Ends Overflows (function c items func index) s Q := by
  obtain ⟨visible, hparams, hbody⟩ := hfunc.scope
  rw [function, hitem]
  simp only [hinfo, orFault, funcLabel, ends_bind, ends_pure, ends_get, hlabel]
  refine meets_paramSlots hparams (hc.signatures func info hinfo).params
    fun slots bottom hslots hplaced => ?_
  have hplaced : Placed c visible slots := fun var hvar =>
    (hplaced var hvar).resolve_left (not_mem_nil)
  simp only [begin_, ends_modify]
  refine (Progress.start (hs.start slots)).meets_newLabel 0 fun exit _ _ h => ?_
  have hin : Inside c.analysis (functionFrame c info bottom exit) { ret := info.ret } [] _ _ 0 :=
    ⟨fun _ _ hresult => (result_functionFrame hresult).2, h.label (.head _),
      Int.le_refl 0, fun hne => absurd rfl hne, fun hne => absurd rfl hne,
      fun t ht => absurd ht not_mem_nil⟩
  refine (compiles_block hc hbody decl.pos).run h hplaced hin
    fun ops E' _ locals' d' _ hd' h => ?_
  obtain rfl : d' = 0 := by simpa using hd'
  refine h.meets_mark fun s' h => ?_
  rw [meets_checkDepth]
  refine ⟨h.depth_eq, ?_⟩
  obtain ⟨new, hnew, hqueue, -⟩ := h.funcs
  refine k _ s' (new.map Prod.fst).reverse h.finished ?_ hqueue rfl fun funcs hfuncs => ?_
  · rw [hnew, map_append, reverse_append]
  · obtain ⟨⟨-, hcode⟩, hexit⟩ := h.holds ⟨c, funcs, E'⟩ ⟨rfl, hfuncs, fun _ _ => rfl⟩
    exact .mk hinfo hindex hitem hfunc (hfuncs func label (by
      rw [hnew]
      exact lookup_append_of_nodup (hnew ▸ h.ok.funcsNodup) hlabel)) hslots hexit hcode

/-! ## Global variables -/

theorem pushes_globals (hc : c.Ok) {items : Program} (hitems : ProgramOk c.engine c.analysis items) :
    ∃ cells, Pushes (sequence ((globalDeclarators items).map (reserveGlobal c))) cells ∧
      cellSize * cells.length = extent c.analysis (declaredVars c.analysis (globalDeclarators items)) := by
  have hdecl := fun d hd => hitems.globalDeclarator (d := d) hd
  generalize globalDeclarators items = ds at hdecl ⊢
  induction ds with
  | nil => exact ⟨[], pushes_nil, rfl⟩
  | cons d ds ih =>
    obtain ⟨cells, hcells, hlen⟩ := ih fun d hd => hdecl d (.tail _ hd)
    obtain ⟨var, info, hvar, -⟩ := hdecl d (.head _)
    have hreserve : reserveGlobal c d = reserve c info.type := by
      simp [reserveGlobal, declVar, varInfo, hvar.decl, hvar.known, orFault]
    have hfirst : Pushes (reserveGlobal c d) (cellsIn c.analysis.structs.defs info.type) :=
      hreserve ▸ pushes_reserveIn hc.structs hvar.storable.isStorable hvar.storable.declared
    have hsize := hc.small.fitting.size_cellsIn hc.structs info.type
    have hvars : declaredVars c.analysis (d :: ds) = var :: declaredVars c.analysis ds := by
      simp [declaredVars, hvar.decl]
    refine ⟨_, hfirst.append hcells, ?_⟩
    rw [hvars, extent_cons hvar.known, ← hlen, length_append]
    have hsize : cellSize * ((cellsIn c.analysis.structs.defs info.type).length : Int) =
        c.analysis.sizeOf info.type := hsize
    rw [← hsize]
    push_cast
    simp only [cellSize]
    omega

section Globals

variable {E₀ E : Depths} {s₀ : GenState} {pending marked : List (Label × Int)} {ops : List Op}
  {known : CodeEnv → Prop} {d : Int} {Q : List Op → GenState → Prop}

theorem meets_inits (hc : c.Ok) {ds : List Declarator}
    (hds : ∀ decl ∈ ds, ∃ var info, DeclaresVar c.engine c.analysis .global [] decl var info ∧
      ∃ offset, c.globals.offsets.lookup var = some offset) {f : Frame}
    (h : Progress c E₀ s₀ pending marked ops known E s [] d)
    (k : ∀ ops' E' s', Progress c E₀ s₀ pending marked (ops ++ ops')
      (fun Γ => known Γ ∧ InitsCode Γ f d ds ops') E' s' [] d → Q ops' s') :
    Ends Overflows (sequence (ds.map (initGlobal c f))) s Q := by
  induction ds generalizing ops known E s Q with
  | nil =>
    rw [map_nil, sequence, ends_pure]
    exact k [] E s ((h.line marks_nil).weaken fun Γ hknown => ⟨hknown, .nil⟩)
  | cons decl ds ih =>
    have hrest := fun decl hdecl => hds decl (.tail _ hdecl)
    cases hinit : decl.init with
    | none =>
      simp only [map_cons, sequence, initGlobal, hinit, ends_bind, ends_pure, nil_append]
      refine ih hrest h fun ops' E' s' h => k ops' E' s' (h.weaken ?_)
      rintro Γ ⟨hknown, hcode⟩
      exact ⟨hknown, .plain hinit hcode⟩
    | some e =>
      obtain ⟨var, info, hvar, offset, hoffset⟩ := hds decl (.head _)
      have husable := hvar.init e hinit
      have hslot : slotOf c [] var = some (.global offset) := by simp [slotOf, hoffset]
      simp only [map_cons, sequence, initGlobal, hinit, declVar, varInfo, hvar.decl, hvar.known,
        orFault, ends_bind, ends_pure]
      refine (compiles_expr hc husable.toUsable husable.typeOf).run h
        (fun var hvar => absurd hvar not_mem_nil) fun value _ _ h => ?_
      refine h.meets_store hslot fun haddr _ h => ?_
      refine h.meets_moveSp (Int.add_neg_cancel_right ..) fun _ _ _ h => ?_
      refine ih hrest h fun ops' E' s' h => k _ E' s' ?_
      simp only [← append_assoc]
      refine h.withCtx.weaken ?_
      rintro Γ ⟨rfl, ⟨hknown, hvalue⟩, hcode⟩
      exact ⟨hknown, .init hinit hvar.decl hvar.known hvalue haddr hcode⟩

theorem meets_callEntry {entry : Option (EntryPoint × Label)} {locals : List (VarId × Int)}
    (h : Progress c E₀ s₀ pending marked ops known E s locals d)
    (k : ∀ ops' s', EntryCode d entry ops' →
      Progress c E₀ s₀ pending marked (ops ++ ops') known E s' locals d → Q ops' s') :
    Ends Overflows (callEntry entry) s Q := by
  cases entry with
  | none => exact k [] s .none (h.line marks_nil)
  | some e =>
    obtain ⟨e, label⟩ := e
    cases hkind : e.kind with
    | main =>
      simp only [callEntry, hkind]
      exact h.meets_emitCall rfl (Int.add_zero _) fun s' h => k _ s' (.main hkind) h
    | startingConditional =>
      simp only [callEntry, hkind, ends_bind, ends_pure]
      refine h.meets_emit rfl rfl fun _ h => ?_
      refine h.meets_emitCall rfl (Int.add_zero _) fun _ h => ?_
      refine h.meets_depth ?_
      rw [meets_fit]
      intro hfits
      refine h.meets_emit rfl (Int.add_zero _) fun _ h => ?_
      refine h.meets_moveSp (Int.add_neg_cancel_right ..) fun _ _ s' h => ?_
      refine k _ s' (.startingConditional hkind hfits) ?_
      simpa only [← append_assoc] using h

theorem size_globals (hc : c.Ok) {items : Program} (hitems : ProgramOk c.engine c.analysis items)
    (hglobals : c.globals = .ofAnalysis c.analysis)
    (hfits : Fits (extent c.analysis (declaredVars c.analysis (globalDeclarators items)))) :
    extent c.analysis (declaredVars c.analysis (globalDeclarators items)) = c.globals.size := by
  have hvars : ∀ var ∈ declaredVars c.analysis (globalDeclarators items), ∃ info,
      c.analysis.vars[var]? = some info ∧ info.isConst = false := by
    intro var hvar
    obtain ⟨d, hd, hvar⟩ := mem_filterMap.mp hvar
    obtain ⟨var', info, hdeclares, hconst⟩ := hitems.globalDeclarator hd
    cases hvar.symm.trans hdeclares.decl
    exact ⟨info, hdeclares.known, hconst⟩
  have hempty : ({} : GlobalLayout).size = 0 := rfl
  have hlt := hfits.2
  rw [hglobals, hitems.layout, GlobalLayout.size_foldl (fun type => (hc.isOperand type).1) hvars
    (Int.le_refl 0) (by omega)]
  omega

theorem meets_globalsRoutine (hc : c.Ok) {items : Program}
    (hitems : ProgramOk c.engine c.analysis items) (hglobals : c.globals = .ofAnalysis c.analysis)
    (hpos : 0 < c.globals.size) {label : Label} {entry : Option (EntryPoint × Label)}
    (hs : s.Between c.analysis) {Q : Routine → GenState → Prop}
    (k : ∀ r s' added, Finished c.analysis s s' →
      (s'.funcLabels.map Prod.fst).reverse = (s.funcLabels.map Prod.fst).reverse ++ added →
      s'.queue = s.queue ++ added → r.label = label →
      (∀ funcs, Extends funcs s' → GlobalsCode c items funcs entry r) → Q r s') :
    Ends Overflows (globalsRoutine c items label entry) s Q := by
  obtain ⟨cells, hcells, hlen⟩ := pushes_globals hc hitems
  have hinits : ∀ decl ∈ globalDeclarators items, ∃ var info,
      DeclaresVar c.engine c.analysis .global [] decl var info ∧
        ∃ offset, c.globals.offsets.lookup var = some offset := by
    intro decl hmem
    obtain ⟨var, info, hvar, hconst⟩ := hitems.globalDeclarator hmem
    refine ⟨var, info, hvar, ?_⟩
    rw [hglobals, hitems.layout]
    exact GlobalLayout.lookup_foldl (mem_filterMap.mpr ⟨decl, hmem, hvar.decl⟩) hvar.known hconst
  simp only [globalsRoutine, begin_, ends_bind, ends_modify, ends_pure]
  refine (Progress.start (hs.start [])).meets_pushes hcells fun hfits _ h => ?_
  have hfits : Fits (cellSize * cells.length) := by
    simpa using hfits (show Fits 0 by unfold Fits; decide)
  have hsize : cellSize * cells.length = c.globals.size :=
    hlen.trans (size_globals hc hitems hglobals (hlen ▸ hfits))
  simp only [hsize, Int.zero_add] at h
  rw [meets_checkDepth]
  refine ⟨h.depth_eq, ?_⟩
  refine h.meets_emit rfl rfl fun _ h => ?_
  refine meets_inits hc hinits h fun inits E' _ h => ?_
  refine meets_callEntry h fun call _ hcall h => ?_
  refine h.meets_emit rfl (Int.add_neg_cancel_right ..) fun _ h => ?_
  rw [popGlobals, if_pos hpos]
  refine h.meets_moveSp (Int.add_right_neg _) fun hneg _ _ h => ?_
  refine h.meets_emit rfl (Int.add_zero _) fun s' h => ?_
  rw [meets_checkDepth]
  refine ⟨h.depth_eq, ?_⟩
  obtain ⟨new, hnew, hqueue, -⟩ := h.funcs
  refine k _ s' (new.map Prod.fst).reverse h.finished ?_ hqueue rfl fun funcs hfuncs => ?_
  · rw [hnew, map_append, reverse_append]
  · obtain ⟨-, hcode⟩ := h.holds ⟨c, funcs, E'⟩ ⟨rfl, hfuncs, fun _ _ => rfl⟩
    exact .mk hsize (hlen.symm.trans hsize) hneg hcode hcall

end Globals

end Gen
end Nwscript
