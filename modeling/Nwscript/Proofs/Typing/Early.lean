import Nwscript.Proofs.Code.Accepted
import Nwscript.Proofs.Typing.Constants

/-! # Early constants

Default values are found before the global variables are checked, from the constants that can be
evaluated by then and those of the engine. A variable that has no early value does not hide a
constant of the engine yet. Where no such variable has the name of one, a default is the value that
its expression has among the global variables. -/

open List Option

namespace Nwscript

variable {v : Value} {name : String}

open CheckState

theorem evalConst_mono {env env' : String → Option Value} {e : Expr}
    (h : ∀ name w, env name = some w → env' name = some w) (hv : evalConst env e = .ok v) :
    evalConst env' e = .ok v := by
  induction e using Expr.childInduction generalizing v with
  | h e ih =>
    cases e with
    | literal node value => exact hv
    | ident node name =>
      rw [evalConst] at hv ⊢
      cases hname : env name with
      | none => simp [hname] at hv
      | some w => simpa [hname, h name w hname] using hv
    | binary node op lhs rhs =>
      rw [Check.evalConst_binary] at hv ⊢
      cases hx : evalConst env lhs with
      | error fault => simp [hx, Except.bind] at hv
      | ok x =>
        cases hy : evalConst env rhs with
        | error fault => simp [hx, hy, Except.bind] at hv
        | ok y =>
          rw [ih lhs (by simp) hx, ih rhs (by simp) hy]
          rwa [hx, hy] at hv
    | unary node op operand =>
      rw [Check.evalConst_unary] at hv ⊢
      cases hx : evalConst env operand with
      | error fault => simp [hx, Except.bind] at hv
      | ok x =>
        rw [ih operand (by simp) hx]
        rwa [hx] at hv
    | conditional node cond yes no =>
      rw [evalConst] at hv ⊢
      cases hx : evalConst env cond with
      | error fault =>
        rw [hx] at hv
        cases hv
      | ok x =>
        rw [hx] at hv
        rw [ih cond (by simp) hx]
        cases x with
        | int n =>
          dsimp only [bind, Except.bind] at hv ⊢
          split at hv
          · next hzero =>
            rw [if_pos hzero]
            exact ih no (by simp) hv
          · next hzero =>
            rw [if_neg hzero]
            exact ih yes (by simp) hv
        | _ => cases hv
    | _ => cases hv

namespace Check

/-! ## Declarations -/

section Declarations

variable {engine : EngineTable} {final : Analysis} {early : EarlyConsts} {s s' : CheckState}

def earlyBy (engine : EngineTable) (early : EarlyConsts) (d : Bool × Declarator) : EarlyConsts :=
  if d.1 then addEarly engine early d.2 else early

theorem earlyConsts_eq_foldl (engine : EngineTable) (program : Program) :
    earlyConsts engine program = (program.flatMap Item.declared).foldl (earlyBy engine) [] := by
  have hitem (early : EarlyConsts) (item : Item) :
      earlyWith engine early item = item.declared.foldl (earlyBy engine) early := by
    cases item with
    | global decl =>
      rw [earlyWith, Item.declared, foldl_map]
      cases hconst : decl.isConst with
      | true => rfl
      | false => exact (foldl_fixed decl.vars).symm
    | _ => rfl
  rw [earlyConsts, foldl_flatMap]
  congr
  funext early item
  exact hitem early item

theorem earlyBy_cases (engine : EngineTable) (early : EarlyConsts) (d : Bool × Declarator) :
    earlyBy engine early d = early ∨ d.1 = true ∧ ∃ e v, d.2.init = some e ∧
      evalEarly engine early e = .ok v ∧ earlyBy engine early d = (d.2.name, v) :: early := by
  unfold earlyBy addEarly
  split
  · next hconst =>
    split
    · next e he =>
      split
      · next v hv => exact .inr ⟨hconst, e, v, he, hv, rfl⟩
      · exact .inl rfl
    · exact .inl rfl
  · exact .inl rfl

theorem lookup_earlyBy_ne {d : Bool × Declarator} (hne : name ≠ d.2.name) :
    (earlyBy engine early d).lookup name = early.lookup name := by
  rcases earlyBy_cases engine early d with h | ⟨-, e, v, -, -, h⟩
  · rw [h]
  · rw [h, lookup_cons, beq_eq_false_iff_ne.mpr hne]

def constant? (engine : EngineTable) (s : CheckState) (name : String) : Option Value :=
  (s.globals.lookup name).elim (engine.constant? name) fun var =>
    s.analysis.vars[var]?.bind VarInfo.value

/-- At global scope, the early constants and those of the engine are what the names stand for. -/
structure KnowsEarly (engine : EngineTable) (early : EarlyConsts) (s : CheckState) : Prop where
  locals : ∀ name, s.scopes.lookup? name = none
  varsOk : s.VarsOk
  globals : ∀ name var, s.globals.lookup name = some var → ∃ info, s.analysis.vars[var]? = some info
  undeclared : ∀ name, s.globals.lookup name = none → early.lookup name = none
  known : ∀ name v, (early.lookup name).or (engine.constant? name) = some v →
    constant? engine s name = some v

theorem KnowsEarly.knows (h : KnowsEarly engine early s) : Knows engine s (constant? engine s) where
  declared name var hvar := by
    rw [resolve, h.locals, none_or] at hvar
    obtain ⟨info, hinfo⟩ := h.globals name var hvar
    have hvalue : info.value = constant? engine s name := by simp [constant?, hvar, hinfo]
    exact ⟨info, hinfo, hvalue, fun v hv => (h.varsOk.1 var info hinfo).type v (hvalue.trans hv)⟩
  undeclared name hname := by
    rw [resolve, h.locals, none_or] at hname
    simp [constant?, hname]

theorem KnowsEarly.keep (h : KnowsEarly engine early s) (hkeeps : KeepsGlobals s s') :
    KnowsEarly engine early s' where
  locals := hkeeps.scopes ▸ h.locals
  varsOk := hkeeps.varsOk h.varsOk
  globals name var hvar := by
    obtain ⟨info, hinfo⟩ := h.globals name var (hkeeps.names ▸ hvar)
    exact ⟨info, hkeeps.vars var info hinfo⟩
  undeclared := hkeeps.names ▸ h.undeclared
  known name v hv := by
    rw [← h.known name v hv, constant?, constant?, hkeeps.names]
    cases hvar : s.globals.lookup name with
    | none => rfl
    | some var =>
      obtain ⟨info, hinfo⟩ := h.globals name var hvar
      simp [hinfo, hkeeps.vars var info hinfo]

theorem DeclaresGlobal.constant? {isConst : Bool} {d : Declarator} {info : VarInfo}
    (hd : DeclaresGlobal engine final isConst d info s s') (h : KnowsEarly engine early s) (name : String) :
    Check.constant? engine s' name = if name = d.name then info.value else Check.constant? engine s name := by
  rw [Check.constant?, hd.names, lookup_cons, hd.vars]
  by_cases hname : name = d.name
  · simp [hname]
  · rw [if_neg hname, beq_eq_false_iff_ne.mpr hname, Check.constant?]
    cases hvar : s.globals.lookup name with
    | none => rfl
    | some var =>
      obtain ⟨other, hother⟩ := h.globals name var hvar
      simp [hother, getElem?_push_of_some hother]

/-- **One declaration.** A constant with an early value is checked to have that value; a variable
without one hides no constant of the engine. -/
theorem KnowsEarly.declare {d : Bool × Declarator} {info : VarInfo} (h : KnowsEarly engine early s)
    (hd : DeclaresGlobal engine final d.1 d.2 info s s')
    (hvars : ∀ (var : VarId) info, s.analysis.vars[var]? = some info → final.vars[var]? = some info)
    (hhides : (earlyBy engine early d).lookup d.2.name = none → engine.constant? d.2.name = none) :
    KnowsEarly engine (earlyBy engine early d) s' where
  locals := hd.scopes ▸ h.locals
  varsOk := hd.varsOk h.varsOk
  globals name var hvar := by
    rw [hd.names, lookup_cons] at hvar
    split at hvar
    · obtain rfl := Option.some.inj hvar
      exact ⟨info, by simp [hd.vars]⟩
    · obtain ⟨other, hother⟩ := h.globals name var hvar
      exact ⟨other, hd.vars ▸ getElem?_push_of_some hother⟩
  undeclared name hname := by
    rw [hd.names, lookup_cons] at hname
    split at hname
    · cases hname
    · next hne => exact (lookup_earlyBy_ne (by simpa using hne)).trans (h.undeclared name hname)
  known name v hv := by
    rw [hd.constant? h]
    by_cases hname : name = d.2.name
    · subst hname
      rw [if_pos rfl]
      rcases earlyBy_cases engine early d with hearly | ⟨hconst, e, w, hinit, hw, hearly⟩
      · have hnone := h.undeclared _ hd.isNew
        rw [hearly, hnone, none_or, hhides (by rw [hearly, hnone])] at hv
        cases hv
      · obtain ⟨hok, hread⟩ := hd.init e hinit
        rw [hearly, lookup_cons_self, some_or] at hv
        obtain rfl := Option.some.inj hv
        have heval : evalConst (Check.constant? engine s) e = .ok w := evalConst_mono h.known hw
        rcases agree h.knows hvars hok hread with ⟨herror, -⟩ | ⟨x, hx, hvalue, -⟩
        · cases heval.symm.trans herror
        · obtain rfl := Except.ok.inj (heval.symm.trans hx)
          rw [hd.value, if_pos hconst, hinit]
          exact hvalue
    · rw [if_neg hname]
      exact h.known name v (lookup_earlyBy_ne hname ▸ hv)

variable {ds : List (Bool × Declarator)}

theorem DeclaresGlobals.vars (h : DeclaresGlobals engine final ds s s') (var : VarId) (info : VarInfo)
    (hvar : s.analysis.vars[var]? = some info) : s'.analysis.vars[var]? = some info := by
  induction ds generalizing s with
  | nil => exact KeepsGlobals.vars h var info hvar
  | cons d ds ih =>
    obtain ⟨s0, other, s1, hkeeps, hd, hrest⟩ := h
    exact ih hrest (hd.vars ▸ getElem?_push_of_some (hkeeps.vars var info hvar))

theorem DeclaresGlobals.lookup_early (h : DeclaresGlobals engine final ds s s')
    (hname : s.globals.lookup name ≠ none) :
    (ds.foldl (earlyBy engine) early).lookup name = early.lookup name := by
  induction ds generalizing s early with
  | nil => rfl
  | cons d ds ih =>
    obtain ⟨s0, info, s1, hkeeps, hd, hrest⟩ := h
    have hne : name ≠ d.2.name := fun heq => hname (hkeeps.names ▸ heq ▸ hd.isNew)
    rw [foldl_cons, ih hrest, lookup_earlyBy_ne hne]
    rw [hd.names, lookup_cons, beq_eq_false_iff_ne.mpr hne, hkeeps.names]
    exact hname

/-- **All declarations.** -/
theorem KnowsEarly.declareAll (h : KnowsEarly engine early s) (hds : DeclaresGlobals engine final ds s s')
    (hvars : ∀ (var : VarId) info, s'.analysis.vars[var]? = some info → final.vars[var]? = some info)
    (hhides : ∀ d ∈ ds, (ds.foldl (earlyBy engine) early).lookup d.2.name = none →
      engine.constant? d.2.name = none) : KnowsEarly engine (ds.foldl (earlyBy engine) early) s' := by
  induction ds generalizing s early with
  | nil => exact h.keep hds
  | cons d ds ih =>
    obtain ⟨s0, info, s1, hkeeps, hd, hrest⟩ := hds
    have hbehind : DeclaresGlobals engine final (d :: ds) s0 s' := ⟨s0, info, s1, .refl s0, hd, hrest⟩
    have hdeclared : s1.globals.lookup d.2.name ≠ none := by simp [hd.names]
    refine ih ((h.keep hkeeps).declare hd (fun var other hvar => hvars var other ?_) fun hnone => ?_)
      hrest fun d' hd' => hhides d' (.tail _ hd')
    · exact hbehind.vars var other hvar
    · exact hhides d (.head _) ((hrest.lookup_early hdeclared).trans hnone)

end Declarations

/-! ## Defaults -/

/-- A global variable without an early value has the name of a constant of the engine. -/
def HidesConstant (engine : EngineTable) (program : Program) : Prop :=
  ∃ d ∈ program.flatMap Item.declared, (earlyConsts engine program).lookup d.2.name = none ∧
    (engine.constant? d.2.name).isSome = true

/-- Global scope: the global variables of a program are in scope, and nothing is known about nodes. -/
def globalScope (engine : EngineTable) (program : Program) : CheckState :=
  let s := checkedItems engine program
  { s with
    analysis := { s.analysis with types := {}, consts := {}, refs := {}, decls := {}, calls := {} }
    findings := [] }

theorem Passes.knowsEarly {engine : EngineTable} {program : Program} {s s' final : CheckState}
    (h : Passes engine program s s' final) (hhides : ¬ HidesConstant engine program) :
    KnowsEarly engine (earlyConsts engine program) s' := by
  obtain ⟨structs, functions, definitions, rfl⟩ := h.bare
  obtain ⟨entry, rfl, -⟩ := h.entry
  have hstart : KnowsEarly engine [] { analysis := { structs, functions, definitions } } :=
    ⟨fun _ => rfl, ⟨fun _ _ hvar => by simp at hvar, rfl⟩, fun _ _ hvar => by simp at hvar, fun _ _ => rfl,
      fun _ _ hv => hv⟩
  rw [earlyConsts_eq_foldl]
  refine hstart.declareAll h.items.declares (fun _ _ hvar => hvar) fun d hd hnone => ?_
  rw [← earlyConsts_eq_foldl] at hnone
  exact not_isSome_iff_eq_none.mp fun hsome => hhides ⟨d, hd, hnone, hsome⟩

end Check

theorem Program.nodup_firstDefault {program : Program} {i : Nat} {d : Expr}
    (hnodup : program.ids.Nodup) (h : program.firstDefault name i = some d) : d.ids.Nodup := by
  obtain ⟨decl, hdecl, hd⟩ := exists_of_findSome?_eq_some h
  obtain ⟨item, hitem, hhead⟩ := mem_filterMap.mp hdecl
  have hids := (nodup_flatMap.mp hnodup).1 item hitem
  have hparams : (decl.params.flatMap Param.ids).Nodup := by
    cases item with
    | prototype _ =>
      cases hhead
      exact hids
    | function _ body =>
      cases hhead
      exact (nodup_append'.mp hids).1
    | _ => cases hhead
  split at hd
  · obtain ⟨p, hp, hd⟩ := bind_eq_some_iff.mp hd
    have hp := (nodup_flatMap.mp hparams).1 p (mem_of_getElem? hp)
    simpa [hd] using (nodup_cons.mp hp).2
  · cases hd

namespace Accepted

open Check

variable {engine : EngineTable} {program : Program}

/-- **A default is the early value of the first expression declared for it.** Checked as any other
expression at global scope, that expression has the same value, unless an error is found in it or a
variable without an early value hides a constant of the engine. -/
theorem default_agrees (h : Accepted engine program) {func : FuncId} {f : FuncInfo} {i : Nat}
    {p : FuncParam} {v : Value} (hf : (check engine program).analysis.functions[func]? = some f)
    (hp : f.params[i]? = some p) (hv : p.default = some v) :
    ∃ d, program.firstDefault f.name i = some d ∧
      evalEarly engine (earlyConsts engine program) d = .ok v ∧ (HidesConstant engine program ∨
        (∃ found ∈ (checkExpr engine d (globalScope engine program)).2.findings,
          found.problem.severity = .error) ∨
        (checkExpr engine d (globalScope engine program)).2.analysis.valueOf d = some v ∧
        (checkExpr engine d (globalScope engine program)).2.analysis.typeOf d = some p.type) := by
  have hdefault := h.passes.entered.defaults func f i p hf hp
  rw [hv, map_some] at hdefault
  obtain ⟨d, hd, heval⟩ := map_eq_some_iff.mp hdefault
  refine ⟨d, hd, heval, or_iff_not_imp_left.mpr fun hhides => or_iff_not_imp_left.mpr fun hnone => ?_⟩
  push Not at hnone
  have hbehind := h.passes.knowsEarly hhides
  have hknows : KnowsEarly engine _ (globalScope engine program) :=
    hbehind.keep ⟨rfl, rfl, fun _ _ hvar => hvar, fun hok => hok⟩
  have hinv : (globalScope engine program).Inv := by
    have hcollected : (collected engine program).Inv := by
      obtain ⟨structs, functions, definitions, hbare⟩ := h.passes.bare
      rw [hbare]
      exact ⟨by simp [CheckState.visible], by simp, by simp⟩
    have hitems := h.passes.writes.inv hcollected
    exact ⟨hitems.visible, hitems.globals, hitems.known⟩
  have htype : v.type = p.type :=
    (h.programOk.signatures func f hf).defaults p (mem_of_getElem? hp) v hv
  have heval : evalConst (constant? engine (globalScope engine program)) d = .ok v :=
    evalConst_mono hknows.known heval
  rcases agree_of_noErrors hinv (fun _ _ => rfl) (Program.nodup_firstDefault h.nodup hd)
    hknows.knows hnone with ⟨herror, -⟩ | ⟨w, hw, hvalue, hwt⟩
  · rw [heval] at herror
    cases herror
  · obtain rfl := Except.ok.inj (heval.symm.trans hw)
    exact ⟨hvalue, htype ▸ hwt⟩

end Accepted

namespace DefaultSample

def engine : EngineTable where
  version := "1"
  checksum := 876508827055161484
  constants := [("A", .int 1)]

set_option maxRecDepth 20000 in
theorem engine_ofSource : EngineTable.ofSource "1" "int A=1;" = .ok engine := by cbv

def parsed (text : String) : Parsed :=
  parse engine.typeNames ((lex text 0).filterMap Except.toOption)

/-- A default over constants that are defined from each other. -/
def sum : Parsed := parsed "const int B=2;const int C=B*3;void f(int n=C+A){}void main(){f();}"

/-- A constant without an early value, which hides the one of the engine. -/
def hidden : Parsed := parsed "const int A=[1.0,2.0,3.0].y>5.0;void f(int n=A){}void main(){f(A);}"

theorem accepted {text : String} (h : (parsed text).errors.isEmpty = true)
    (h' : (check engine (parsed text).program).findings.isEmpty = true) :
    Accepted engine (parsed text).program where
  table := ⟨_, _, engine_ofSource⟩
  parsed := ⟨_, List.isEmpty_iff.mp h, rfl⟩
  checked := by simp [List.isEmpty_iff.mp h']

def default? (program : Program) : Option (String × Value) := do
  let f ← (check engine program).analysis.functions[0]?
  let p ← f.params[0]?
  return (f.name, ← p.default)

theorem exists_of_default? {program : Program} (h : default? program = some (name, v)) :
    ∃ f p, (check engine program).analysis.functions[0]? = some f ∧ f.name = name ∧
      f.params[0]? = some p ∧ p.default = some v := by
  obtain ⟨f, hf, h⟩ := bind_eq_some_iff.mp h
  obtain ⟨p, hp, h⟩ := bind_eq_some_iff.mp h
  obtain ⟨w, hw, h⟩ := bind_eq_some_iff.mp h
  cases h
  exact ⟨f, p, hf, rfl, hp, hw⟩

def checkedDefault (program : Program) : Option (Bool × Option Value) :=
  (program.firstDefault "f" 0).map fun d =>
    let s := (Check.checkExpr engine d (Check.globalScope engine program)).2
    (s.findings.isEmpty, s.analysis.valueOf d)

theorem sum_facts : sum.errors.isEmpty = true ∧
    (check engine sum.program).findings.isEmpty = true ∧ default? sum.program = some ("f", .int 7) ∧
    checkedDefault sum.program = some (true, some (.int 7)) ∧
    ∀ d ∈ sum.program.flatMap Item.declared, engine.constant? d.2.name = none := by
  decide +kernel

theorem hidden_facts : hidden.errors.isEmpty = true ∧
    (check engine hidden.program).findings.isEmpty = true ∧
    default? hidden.program = some ("f", .int 1) ∧
    checkedDefault hidden.program = some (true, some (.int 0)) := by
  decide +kernel

end DefaultSample

/-- The default of the sample, which is 7, is found among the global variables as well. -/
theorem Accepted.default_agrees_sum :
    Accepted DefaultSample.engine DefaultSample.sum.program ∧
    ∃ d, DefaultSample.sum.program.firstDefault "f" 0 = some d ∧
      (Check.checkExpr DefaultSample.engine d
        (Check.globalScope DefaultSample.engine DefaultSample.sum.program)).2.analysis.valueOf d =
          some (.int 7) := by
  obtain ⟨hparsed, hfound, hdefault, hchecked, hnone⟩ := DefaultSample.sum_facts
  have haccepted : Accepted DefaultSample.engine DefaultSample.sum.program :=
    DefaultSample.accepted hparsed hfound
  obtain ⟨f, p, hf, hname, hp, hv⟩ := DefaultSample.exists_of_default? hdefault
  obtain ⟨d, hd, -, hhides | ⟨found, hmem, -⟩ | ⟨hvalue, -⟩⟩ :=
    Accepted.default_agrees haccepted hf hp hv
  · obtain ⟨x, hx, -, hsome⟩ := hhides
    simp [hnone x hx] at hsome
  · rw [DefaultSample.checkedDefault, ← hname, hd] at hchecked
    have hclean := congrArg Prod.fst (Option.some.inj hchecked)
    rw [List.isEmpty_iff.mp hclean] at hmem
    cases hmem
  · exact ⟨haccepted, d, hname ▸ hd, hvalue⟩

/-- **A default can differ from the same expression in a call.** -/
theorem Accepted.default_differs : Accepted DefaultSample.engine DefaultSample.hidden.program ∧
    ∃ f p d v w, (check DefaultSample.engine DefaultSample.hidden.program).analysis.functions[0]? = some f ∧
      f.params[0]? = some p ∧ p.default = some v ∧
      DefaultSample.hidden.program.firstDefault f.name 0 = some d ∧
      (Check.checkExpr DefaultSample.engine d
        (Check.globalScope DefaultSample.engine DefaultSample.hidden.program)).2.findings = [] ∧
      (Check.checkExpr DefaultSample.engine d
        (Check.globalScope DefaultSample.engine DefaultSample.hidden.program)).2.analysis.valueOf d =
          some w ∧ v ≠ w := by
  obtain ⟨hparsed, hfound, hdefault, hchecked⟩ := DefaultSample.hidden_facts
  obtain ⟨f, p, hf, hname, hp, hv⟩ := DefaultSample.exists_of_default? hdefault
  obtain ⟨d, hd, h⟩ := map_eq_some_iff.mp hchecked
  obtain ⟨hfindings, hvalue⟩ := Prod.mk.inj h
  exact ⟨DefaultSample.accepted hparsed hfound, f, p, d, _, _, hf, hp, hv, hname ▸ hd,
    List.isEmpty_iff.mp hfindings, hvalue, by decide⟩

end Nwscript
