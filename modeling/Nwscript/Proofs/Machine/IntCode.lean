import Nwscript.Proofs.Code.Linking
import Nwscript.Proofs.Machine.IntExpr
import Nwscript.Proofs.Trace.Evaluation

/-! # Code of integer expressions

The code of an integer expression does not depend on structures, functions and variables of other types.
So it is the code for tables without them, which are small whatever the program declares, and it runs as
the expression is evaluated. -/

open List

namespace Nwscript

open Gen Meaning

variable {α : Type} {entries : List (Nat × α)} {key : Nat} {var : VarId} {σ : Store}

/-! ## Expressions of a function -/

def Analysis.HasExpr (a : Analysis) (program : Program) (e : Expr) : Prop :=
  ∃ func info index decl body top, a.functions[func]? = some info ∧ info.defined = true ∧
    a.definition? func = some index ∧ program[index]? = some (.function decl body) ∧
    top ∈ Stmt.exprsOf body ∧ e ∈ top.parts

/-! ## Tables without other types -/

def Analysis.isIntConst (a : Analysis) (var : VarId) : Bool :=
  match a.vars[var]? with
  | some info => info.isConst && info.type = .int
  | none => false

def FuncInfo.plain (f : FuncInfo) : FuncInfo := { f with ret := .void, params := [] }

def Analysis.intsOnly (a : Analysis) (vars : List VarId) : Analysis :=
  { a with
    refs := ⟨a.refs.entries.filter fun p => vars.contains p.2 || a.isIntConst p.2⟩
    globals := (a.refs.entries.map Prod.snd).filter a.isIntConst
    functions := a.functions.map FuncInfo.plain
    structs := {} }

def GenContext.intsOnly (c : GenContext) (vars : List VarId) : GenContext :=
  { c with analysis := c.analysis.intsOnly vars }

theorem ProgramOk.exprOk {engine : EngineTable} {a : Analysis} {program : Program}
    (h : ProgramOk engine a program) {e : Expr} (he : a.HasExpr program e) : ExprOk engine a e := by
  obtain ⟨func, info, index, decl, body, top, hinfo, hdefined, hindex, hitem, htop, hpart⟩ := he
  obtain ⟨visible, -, hbody⟩ := (h.body ⟨info, hinfo, hdefined⟩ hinfo hindex hitem).scope
  obtain ⟨st, hst, htop⟩ := Stmt.mem_exprsOf.mp htop
  obtain ⟨inner, hinner⟩ := hbody.of_mem hst
  obtain ⟨_, husable⟩ := hinner.usable htop
  exact fun p hp => husable.ok p (Expr.mem_parts_trans hp hpart)

theorem lookup_filter {P : α → Bool} {x : α} (h : entries.lookup key = some x) (hx : P x = true) :
    (entries.filter fun p => P p.2).lookup key = some x := by
  induction entries with
  | nil => cases h
  | cons p entries ih =>
    obtain ⟨k, y⟩ := p
    rw [lookup_cons] at h
    by_cases hkey : key = k
    · subst hkey
      obtain rfl : y = x := by simpa using h
      simp [hx]
    · have hne : (key == k) = false := by simpa using hkey
      rw [hne] at h
      rw [filter_cons]
      split
      · rw [lookup_cons, hne]
        exact ih h
      · exact ih h

theorem mem_of_lookup_filter {P : α → Bool} {x : α}
    (h : (entries.filter fun p => P p.2).lookup key = some x) :
    P x = true ∧ x ∈ entries.map Prod.snd := by
  obtain ⟨before, after, hsplit, -⟩ := lookup_eq_some_iff.mp h
  have hmem : (key, x) ∈ entries.filter fun p => P p.2 := by simp [hsplit]
  obtain ⟨hentry, hx⟩ := mem_filter.mp hmem
  exact ⟨hx, mem_map_of_mem hentry⟩

theorem lookup_filter_none {P : α → Bool}
    (h : entries.lookup key = none) : (entries.filter fun p => P p.2).lookup key = none := by
  rw [lookup_eq_none_iff] at h ⊢
  intro p hp
  exact h p (mem_filter.mp hp).1

namespace Machine

section IntsOnly

variable {engine : EngineTable} {a : Analysis} {c : GenContext} {vars : List VarId}

theorem intsOnly_ok (hvars : c.analysis.VarsOk) (hengine : c.engine.Ok) : (c.intsOnly vars).Ok where
  structs := trivial
  small := fun d hd => by cases hd
  vars := hvars
  signatures := by
    intro func f hf
    have hmap : (c.analysis.functions.map FuncInfo.plain)[func]? = some f := hf
    rw [Array.getElem?_map] at hmap
    obtain ⟨f₀, -, rfl⟩ := Option.map_eq_some_iff.mp hmap
    exact ⟨.inl rfl, by simp [FuncInfo.plain], by simp [FuncInfo.plain], by simp [FuncInfo.plain, Trails]⟩
  engine := hengine
  globals := by
    intro var hvar
    have hconst : c.analysis.isIntConst var = true := (mem_filter.mp hvar).2
    unfold Analysis.isIntConst at hconst
    split at hconst
    · rename_i info hinfo
      obtain ⟨hc, htype⟩ : info.isConst = true ∧ info.type = .int := by simpa using hconst
      refine ⟨info, hinfo, ?_, fun hnot => ?_⟩
      · rw [htype]
        exact ⟨rfl, trivial, by simp⟩
      · cases hc.symm.trans hnot
    · cases hconst

/-- The name of an integer stands for the same in the tables without other types. -/
theorem IntName.refs (hvars : a.VarsOk) {id : NodeId}
    {name : String} (h : IntName engine a vars id name) :
    (a.intsOnly vars).refs.get? id = a.refs.get? id := by
  rcases h with ⟨var, hvar, href⟩ | ⟨var, info, n, href, hinfo, -, hvalue⟩ | ⟨n, hnone, -⟩
  · rw [href]
    exact lookup_filter (P := fun var => vars.contains var || a.isIntConst var) href (by simp [hvar])
  · have hok := hvars var info hinfo
    have hconst : info.isConst = true := by rw [hok.isConst, hvalue]; rfl
    have htype : info.type = .int := (hok.type (.int n) hvalue).symm
    rw [href]
    exact lookup_filter (P := fun var => vars.contains var || a.isIntConst var) href
      (by simp [Analysis.isIntConst, hinfo, hconst, htype])
  · rw [hnone]
    exact lookup_filter_none (P := fun var => vars.contains var || a.isIntConst var) hnone

theorem IntName.type {info : VarInfo} (hvars : a.VarsOk)
    (hlocals : LocalInts a vars) {id : NodeId} {name : String} (h : IntName engine a vars id name)
    (href : a.refs.get? id = some var) (hinfo : a.vars[var]? = some info) : info.type = .int := by
  rcases h with ⟨var', hvar, href'⟩ | ⟨var', info', n, href', hinfo', -, hvalue⟩ | ⟨n, hnone, -⟩
  · cases href.symm.trans href'
    obtain ⟨info', hinfo', -, htype⟩ := hlocals var hvar
    cases hinfo.symm.trans hinfo'
    exact htype
  · cases href.symm.trans href'
    cases hinfo.symm.trans hinfo'
    exact ((hvars var info hinfo).type (.int n) hvalue).symm
  · cases hnone.symm.trans href

theorem binaryType?_int {op : BinOp} {type : Ty} (h : binaryType? op .int .int = some type) :
    type = .int := by
  cases op <;> simp_all [binaryType?, BinOp.isEquality]

theorem IntExpr.typeOf_eq (hvars : a.VarsOk)
    (hlocals : LocalInts a vars) {e : Expr} (h : IntExpr engine a vars e) (hok : ExprOk engine a e) :
    a.typeOf e = some .int := by
  induction e using Expr.childInduction with
  | h e ih =>
    have ih : ∀ child ∈ e.children, a.typeOf child = some .int := fun child hchild =>
      ih child hchild (h.child hchild) fun p hp => hok p (Expr.mem_parts_iff.mpr (.inr ⟨child, hchild, hp⟩))
    have hpart := h e (Expr.self_mem_parts e)
    obtain ⟨type, value, hrule, htype, -⟩ := hok e (Expr.self_mem_parts e)
    rw [htype]
    cases hrule with
    | literal => exact congrArg some hpart
    | «variable» href hinfo => exact congrArg some (IntName.type hvars hlocals hpart href hinfo)
    | engineConstant hnone hconst =>
      rcases hpart with ⟨_, _, href⟩ | ⟨_, _, _, href, _⟩ | ⟨n, _, hint⟩
      · cases hnone.symm.trans href
      · cases hnone.symm.trans href
      · cases hconst.symm.trans hint
        rfl
    | @binary _ _ lhs rhs _ _ _ hl hr hop =>
      cases hl.symm.trans (ih lhs (by simp))
      cases hr.symm.trans (ih rhs (by simp))
      exact congrArg some (binaryType?_int hop)
    | @unary _ _ operand _ ho _ =>
      rw [← ho]
      exact ih operand (by simp)
    | step => rfl
    | userCall => exact hpart.elim
    | engineCall => exact hpart.elim
    | @assign _ target _ _ _ _ ht _ =>
      rw [← ht]
      exact ih target (by simp)
    | @compound _ _ target _ _ _ _ _ ht _ _ =>
      rw [← ht]
      exact ih target (by simp)
    | field => exact hpart.elim
    | @conditional _ _ yes _ _ _ hy _ =>
      rw [← hy]
      exact ih yes (by simp)

/-- The tables without other types are right about an integer expression. -/
theorem IntExpr.usable (hvars : a.VarsOk)
    {e : Expr} (h : IntExpr engine a vars e) (hok : ExprOk engine a e) :
    Usable engine (a.intsOnly vars) vars e := by
  have hwritable {target : Expr} (hw : Writable a target) (hident : target.isIdent = true)
      (htarget : IntExpr engine a vars target) : Writable (a.intsOnly vars) target := by
    obtain ⟨var, info, href, hinfo, hconst⟩ := hw
    cases target with
    | ident node name =>
      have hname := IntName.refs hvars (htarget _ (Expr.self_mem_parts _))
      exact ⟨var, info, hname.trans href, hinfo, hconst⟩
    | _ => cases hident
  refine ⟨fun p hp => ?_, fun p _ var href => ?_⟩
  · have hpart := h p hp
    have hchild : ∀ child ∈ p.children, IntExpr engine a vars child := fun child hchild q hq =>
      h q (Expr.mem_parts_trans (Expr.mem_parts_iff.mpr (.inr ⟨child, hchild, hq⟩)) hp)
    obtain ⟨type, value, hrule, htype, hvalue⟩ := hok p hp
    refine ⟨type, value, ?_, htype, hvalue⟩
    cases hrule with
    | literal node value => exact .literal node value
    | «variable» href hinfo => exact .variable ((IntName.refs hvars hpart).trans href) hinfo
    | engineConstant hnone hconst => exact .engineConstant ((IntName.refs hvars hpart).trans hnone) hconst
    | binary hl hr hop => exact .binary hl hr hop
    | unary ho happlies => exact .unary ho happlies
    | @step _ _ _ target hident hw ht =>
      exact .step hident (hwritable hw hident (hchild target (by simp))) ht
    | userCall => exact hpart.elim
    | engineCall => exact hpart.elim
    | @assign _ target _ _ hident hw ht hv =>
      have htarget := hchild target (by simp)
      obtain ⟨node, name, rfl⟩ := htarget.target hident
      exact .assign hident (hwritable hw hident htarget) ht hv
    | @compound _ _ target _ _ _ hident hw ht hv hop =>
      have htarget := hchild target (by simp)
      obtain ⟨node, name, rfl⟩ := htarget.target hident
      exact .compound hident (hwritable hw hident htarget) ht hv hop
    | field => exact hpart.elim
    | conditional hc hy hn => exact .conditional hc hy hn
  · obtain ⟨hkept, hmem⟩ := mem_of_lookup_filter
      (P := fun var => vars.contains var || a.isIntConst var) href
    rcases Bool.or_eq_true_iff.mp hkept with hvar | hconst
    · exact .inl (by simpa using hvar)
    · exact .inr (mem_filter.mpr ⟨hmem, hconst⟩)

theorem IntExpr.eval_eq (hvars : a.VarsOk) {calls : Calls} {e : Expr} (h : IntExpr engine a vars e) :
    eval engine (a.intsOnly vars) calls e = eval engine a calls e := by
  have htarget {target : Expr} (ht : IntExpr engine a vars target) :
      targetVar? (a.intsOnly vars) target = targetVar? a target := by
    cases target with
    | ident node name => exact IntName.refs hvars (ht _ (Expr.self_mem_parts _))
    | _ => rfl
  induction e using Expr.inductionOn with
  | literal node value => rw [eval, eval]
  | ident node name =>
    rw [eval, eval, IntName.refs hvars (h _ (Expr.self_mem_parts _))]
    rfl
  | binary node op lhs rhs ihl ihr =>
    rw [eval, eval, ihl (h.child (by simp)), ihr (h.child (by simp))]
  | unary node op operand ih => rw [eval, eval, ih (h.child (by simp))]
  | step node s order target ih =>
    have ht := h.child (c := target) (by simp)
    rw [eval, eval, ih ht, htarget ht]
  | call => exact (h _ (Expr.self_mem_parts _)).elim
  | assign node op target value iht ihv =>
    have ht := h.child (c := target) (by simp)
    have hv := h.child (c := value) (by simp)
    cases op with
    | none =>
      rw [eval.eq_def, eval.eq_def engine a calls (.assign _ _ _ _)]
      simp only [ihv hv, htarget ht]
    | some op =>
      rw [eval.eq_def, eval.eq_def engine a calls (.assign _ _ _ _)]
      simp only [iht ht, ihv hv, htarget ht]
  | field => exact (h _ (Expr.self_mem_parts _)).elim
  | conditional node cond yes no ihc ihy ihn =>
    rw [eval, eval, ihc (h.child (by simp)), ihy (h.child (by simp)),
      ihn (h.child (by simp))]

theorem ExprOk.target {node : Node} {op : Option BinOp} {target value : Expr}
    (h : ExprOk engine a (.assign node op target value)) :
    target.root.isIdent = true ∧ Writable a target.root := by
  obtain ⟨_, _, hrule, -⟩ := h _ (Expr.self_mem_parts _)
  cases hrule with
  | assign hident hw _ _ => exact ⟨hident, hw⟩
  | compound hident hw _ _ _ => exact ⟨hident, hw⟩

/-- The same code is generated for it. -/
theorem IntExpr.expr_eq (hvars : c.analysis.VarsOk)
    (hlocals : LocalInts c.analysis vars) {f : Frame} {e : Expr}
    (h : IntExpr c.engine c.analysis vars e) (hok : ExprOk c.engine c.analysis e) :
    expr (c.intsOnly vars) f e = expr c f e := by
  have hint {e : Expr} (h : IntExpr c.engine c.analysis vars e) (hok : ExprOk c.engine c.analysis e) :
      c.analysis.types.get? e.id = some .int := h.typeOf_eq hvars hlocals hok
  have hchild {e d : Expr} (hd : d ∈ e.children) (hok : ExprOk c.engine c.analysis e) :
      ExprOk c.engine c.analysis d :=
    fun p hp => hok p (Expr.mem_parts_iff.mpr (.inr ⟨d, hd, hp⟩))
  have hbinary (op : BinOp) : binaryOp (c.intsOnly vars) op .int .int = binaryOp c op .int .int := rfl
  induction e using Expr.inductionOn with
  | literal node value =>
    rw [expr, expr]
    rfl
  | ident node name =>
    have hname := h _ (Expr.self_mem_parts _)
    have hrefs := IntName.refs hvars hname
    have href : varRef (c.intsOnly vars) (.ident node name) = varRef c (.ident node name) :=
      congrArg (orFault _) hrefs
    rw [expr, expr, href]
    cases hfound : c.analysis.refs.get? node.id with
    | none =>
      have hnone : varRef c (.ident node name) = throw (.identNotResolved (Expr.ident node name).id) :=
        congrArg (orFault _) hfound
      rw [hnone]
      rfl
    | some var =>
      have hsome : varRef c (.ident node name) = pure var := congrArg (orFault _) hfound
      rw [hsome]
      cases hinfo : c.analysis.vars[var]? with
      | none =>
        have hthrow : varInfo c var = throw (.unknownVariable var) := congrArg (orFault _) hinfo
        have hthrow' : varInfo (c.intsOnly vars) var = throw (.unknownVariable var) := hthrow
        simp only [pure_bind, hthrow, hthrow']
        rfl
      | some info =>
        have htype := IntName.type hvars hlocals hname hfound hinfo
        have hload : varInfo c var = pure info := congrArg (orFault _) hinfo
        have hload' : varInfo (c.intsOnly vars) var = pure info := hload
        simp only [pure_bind, hload, hload', htype]
        rfl
  | binary node op lhs rhs ihl ihr =>
    have hl := h.child (c := lhs) (by simp)
    have hr := h.child (c := rhs) (by simp)
    have hlok := hchild (d := lhs) (by simp) hok
    have hrok := hchild (d := rhs) (by simp) hok
    have htl : typeOf c lhs = pure .int := congrArg (orFault _) (hint hl hlok)
    have htr : typeOf c rhs = pure .int := congrArg (orFault _) (hint hr hrok)
    have htl' : typeOf (c.intsOnly vars) lhs = pure .int := htl
    have htr' : typeOf (c.intsOnly vars) rhs = pure .int := htr
    rw [expr, expr, ihl hl hlok, ihr hr hrok, htl, htr, htl', htr']
    simp only [pure_bind, hbinary]
    rfl
  | unary node op operand ih =>
    rw [expr, expr, ih (h.child (by simp)) (hchild (by simp) hok)]
    rfl
  | step node s order target ih =>
    have hvar : varRef (c.intsOnly vars) target = varRef c target := by
      obtain ⟨_, _, hrule, -⟩ := hok _ (Expr.self_mem_parts _)
      cases hrule with
      | step hident _ _ =>
        cases target with
        | ident node' name =>
          have htarget := h.child (c := .ident node' name) (by simp)
          exact congrArg (orFault _) (IntName.refs hvars (htarget _ (Expr.self_mem_parts _)))
        | _ => cases hident
    rw [expr, expr, hvar]
    rfl
  | call => exact (h _ (Expr.self_mem_parts _)).elim
  | assign node op target value iht ihv =>
    have hv := h.child (c := value) (by simp)
    have hvok := hchild (d := value) (by simp) hok
    have htv : typeOf c value = pure .int := congrArg (orFault _) (hint hv hvok)
    have htv' : typeOf (c.intsOnly vars) value = pure .int := htv
    have hplace : ∃ var, Gen.place c target = pure (some ⟨var, 0, .int⟩) ∧
        Gen.place (c.intsOnly vars) target = pure (some ⟨var, 0, .int⟩) := by
      have htarget := h.child (c := target) (by simp)
      obtain ⟨hident, var, info, href, hinfo, -⟩ := ExprOk.target hok
      obtain ⟨node', name, rfl⟩ := htarget.target hident
      have href : c.analysis.refs.get? node'.id = some var := href
      have hname := htarget _ (Expr.self_mem_parts _)
      have htype := IntName.type hvars hlocals hname href hinfo
      have href' := (IntName.refs hvars hname).trans href
      have hload : varInfo c var = pure info := congrArg (orFault _) hinfo
      have hload' : varInfo (c.intsOnly vars) var = pure info := hload
      refine ⟨var, ?_, ?_⟩
      · rw [Gen.place, href]
        simp only [hload, pure_bind, htype]
      · rw [Gen.place, GenContext.intsOnly, href']
        rw [GenContext.intsOnly] at hload'
        simp only [hload', pure_bind, htype]
    obtain ⟨var, hplace, hplace'⟩ := hplace
    have hpart (part : Part) : orFault GenFault.targetWithoutStorage (some part) = pure part := rfl
    unfold expr
    dsimp only
    rw [hplace, hplace']
    cases op with
    | none =>
      simp only [pure_bind, hpart, ihv hv hvok]
      rfl
    | some op =>
      simp only [pure_bind, hpart, ihv hv hvok, htv, htv', hbinary]
      rfl
  | field => exact (h _ (Expr.self_mem_parts _)).elim
  | conditional node cond yes no ihc ihy ihn =>
    rw [expr, expr, ihc (h.child (by simp)) (hchild (by simp) hok),
      ihy (h.child (by simp)) (hchild (by simp) hok),
      ihn (h.child (by simp)) (hchild (by simp) hok)]
    rfl

theorem IntExpr.intsOnly (hvars : a.VarsOk)
    {e : Expr} (h : IntExpr engine a vars e) : IntExpr engine (a.intsOnly vars) vars e := by
  intro p hp
  have hpart := h p hp
  cases p with
  | ident node name =>
    have hname : IntName engine a vars node.id name := hpart
    show IntName engine (a.intsOnly vars) vars node.id name
    unfold IntName
    rw [hname.refs hvars]
    exact hname
  | _ => exact hpart

theorem intsOnly_state {E : Depths} {s : GenState} (h : s.Ok a E) : s.Ok (a.intsOnly vars) E where
  labels := h.labels
  funcLabels := h.funcLabels
  funcsNodup := h.funcsNodup
  defined := by
    intro p hp
    obtain ⟨f, hf, hdefined⟩ := h.defined p hp
    refine ⟨f.plain, ?_, hdefined⟩
    have hmap : (a.functions.map FuncInfo.plain)[p.1]? = some f.plain := by
      rw [Array.getElem?_map, hf]
      rfl
    exact hmap

end IntsOnly

/-! ## Runs -/

theorem isConst_of_offset {info : VarInfo} {a : Analysis} {offset : Int}
    (h : (GlobalLayout.ofAnalysis a).offsets.lookup var = some offset)
    (hinfo : a.vars[var]? = some info) : info.isConst = false := by
  have hfold (vars : List VarId) (layout : GlobalLayout)
      (hlayout : ∀ offset, layout.offsets.lookup var = some offset → info.isConst = false) :
      ∀ offset, (vars.foldl (GlobalLayout.add a) layout).offsets.lookup var = some offset →
        info.isConst = false := by
    induction vars generalizing layout with
    | nil => exact hlayout
    | cons other vars ih =>
      rw [foldl_cons]
      refine ih _ fun offset hlookup => ?_
      unfold GlobalLayout.add at hlookup
      split at hlookup
      · rename_i found hfound
        split at hlookup
        · exact hlayout offset hlookup
        · rename_i hconst
          rw [lookup_cons] at hlookup
          by_cases heq : var = other
          · subst heq
            cases hinfo.symm.trans hfound
            simpa using hconst
          · have hne : (var == other) = false := by simpa using heq
            rw [hne] at hlookup
            exact hlayout offset hlookup
      · exact hlayout offset hlookup
  exact hfold a.globals {} (fun _ hnil => by cases hnil) offset h

section Run

variable {c : GenContext} {vars : List VarId} {e : Expr} {f : Frame} {s : GenState} {E : Depths}
  {F : List Cell}

/-- Code is generated for an integer expression unless an offset does not fit 32 bits, and its lines
follow the evaluation of the expression. -/
theorem IntExpr.meets (hvars : c.analysis.VarsOk)
    (hengine : c.engine.Ok) (hglobals : c.globals = .ofAnalysis c.analysis)
    (hlocals : LocalInts c.analysis vars) (h : IntExpr c.engine c.analysis vars e)
    (hok : ExprOk c.engine c.analysis e) (hs : s.Ok c.analysis E)
    (hshows : Shows c.analysis vars s.locals s.depth F) (calls : Calls) (k : Nat)
    (hσ : ConstsHold c.analysis vars σ) (back : List Nat) :
    Ends Overflows (expr c f e) s fun ops _ => Follows ops k ⟨0, stackOf F σ, back⟩
      (fun r => ⟨ops.length, pushed r.1 ++ stackOf F r.2, back⟩) (eval c.engine c.analysis calls e σ) := by
  have hc : (c.intsOnly vars).Ok := intsOnly_ok hvars hengine
  have hu : Usable (c.intsOnly vars).engine (c.intsOnly vars).analysis vars e := h.usable hvars hok
  have htype : (c.intsOnly vars).analysis.typeOf e = some .int := h.typeOf_eq hvars hlocals hok
  have hshows' : Shows (c.intsOnly vars).analysis vars s.locals s.depth F :=
    ⟨hshows.place, hshows.once, hshows.kind⟩
  have hints : LocalInts (c.intsOnly vars).analysis vars := hlocals
  have hplaced : Placed (c.intsOnly vars) vars s.locals := hshows'.placed hints
  -- the code is that for the tables without other types, which has its shape
  have hmeets := compiles_expr (f := f) hc hu htype E s (intsOnly_state hs) hplaced
  rw [h.expr_eq hvars hlocals hok] at hmeets
  refine hmeets.mono fun ops s' hprogress => ?_
  obtain ⟨E', hprogress⟩ := hprogress
  have hcode := hprogress.holds ⟨c.intsOnly vars, fun func => s'.funcLabels.lookup func, E'⟩
    ⟨rfl, fun _ _ => id, fun _ _ => rfl⟩
  have hnodup : (marks ops).Nodup := hprogress.nodup
  have hsimple : Simple (c.intsOnly vars).analysis (fun _ => False) vars e :=
    (h.intsOnly hvars).simple hc.vars _
  have hS : (Site.mk ops k (c.intsOnly vars) vars s.locals).Ok (fun func => s'.funcLabels.lookup func)
      calls fun _ => False :=
    { ctx := hc
      nodup := hnodup
      ints := hints
      placed := hplaced
      consts := by
        intro var offset info hoffset hinfo
        have hoffset : c.globals.offsets.lookup var = some offset := hoffset
        rw [hglobals] at hoffset
        exact isConst_of_offset hoffset hinfo
      typed := fun _ => False.elim
      calls := fun _ => False.elim }
  have hcomputes := computes_exprCode hS hcode ⟨hu, hsimple⟩
  have hfollows := hcomputes 0 back σ F located_self hshows' hσ
  have heval : eval (c.intsOnly vars).engine (c.intsOnly vars).analysis calls e =
    eval c.engine c.analysis calls e := h.eval_eq hvars
  rw [heval, Nat.zero_add] at hfollows
  exact hfollows

end Run

/-! ## Whole expressions -/

/-- Lines run as an execution does: they come to their end exactly if the execution does not divide by
zero, and then the stack is the one that shows the variables behind it, with the value on top. -/
structure RunsAs (ops : List Op) (F : List Cell) (x : Eval (Option Value)) (σ : Store)
    (back : List Nat) : Prop where
  ends_iff : (∃ t, Reaches ops ⟨0, stackOf F σ, back⟩ t ∧ t.pc = ops.length) ↔
    x σ ≠ .fault .divisionByZero
  result : ∀ t, Reaches ops ⟨0, stackOf F σ, back⟩ t → t.pc = ops.length → ∃ n σ',
    x σ = .done (some (.int n), σ') ∧ t = ⟨ops.length, .int n :: stackOf F σ', back⟩

theorem step_end (ops : List Op) {t : State} (h : t.pc = ops.length) : step ops t = none := by
  simp [step, h]

theorem RunsAs.of_follows {ops : List Op} {F : List Cell} {x : Eval (Option Value)} {P : Store → Prop}
    {back : List Nat} (hgives : GivesInt P x) (hσ : P σ)
    (h : Follows ops 0 ⟨0, stackOf F σ, back⟩ (fun r => ⟨ops.length, pushed r.1 ++ stackOf F r.2, back⟩)
      (x σ)) : RunsAs ops F x σ back := by
  rcases hgives σ hσ with hfault | ⟨n, σ', hdone, -⟩
  · -- the machine stops in the middle, so it does not come to the end
    rw [hfault] at h
    obtain ⟨stuck, hreach, hstuck⟩ := h
    have hnever : ∀ t, Reaches ops ⟨0, stackOf F σ, back⟩ t → t.pc ≠ ops.length := by
      intro t ht hend
      obtain rfl := hreach.stopped_unique hstuck.stopped ht (step_end ops hend)
      obtain ⟨i, hline, -⟩ := hstuck
      rw [hend] at hline
      simp at hline
    refine ⟨⟨?_, fun hne => absurd hfault hne⟩, fun t ht hend => absurd hend (hnever t ht)⟩
    rintro ⟨t, ht, hend⟩
    exact absurd hend (hnever t ht)
  · rw [hdone] at h
    have hreach : Reaches ops ⟨0, stackOf F σ, back⟩ ⟨ops.length, .int n :: stackOf F σ', back⟩ := h
    refine ⟨⟨fun _ => by rw [hdone]; simp, fun _ => ⟨_, hreach, rfl⟩⟩, fun t ht hend => ⟨n, σ', hdone, ?_⟩⟩
    exact ht.stopped_unique (step_end ops hend) hreach (step_end ops rfl)

end Machine

namespace Sample

/-- The tokens of `int f(int n) { while (n) n -= 1; return n += 6 / (n + 2); } void main() { f(1); }`. -/
def countTokens : List Token :=
  [token (.keyword .kwInt) "", nameToken "f", symbolToken .leftParen, token (.keyword .kwInt) "",
    nameToken "n", symbolToken .rightParen, symbolToken .leftBrace, token (.keyword .kwWhile) "",
    symbolToken .leftParen, nameToken "n", symbolToken .rightParen, nameToken "n", symbolToken .minusEq,
    token .intLit "1", symbolToken .semicolon, token (.keyword .kwReturn) "", nameToken "n",
    symbolToken .plusEq, token .intLit "6", symbolToken .slash, symbolToken .leftParen, nameToken "n",
    symbolToken .plus, token .intLit "2", symbolToken .rightParen, symbolToken .semicolon,
    symbolToken .rightBrace, token (.keyword .kwVoid) "", nameToken "main", symbolToken .leftParen,
    symbolToken .rightParen, symbolToken .leftBrace, nameToken "f", symbolToken .leftParen,
    token .intLit "1", symbolToken .rightParen, symbolToken .semicolon, symbolToken .rightBrace]

def countParsed : Parsed := parse engine.typeNames countTokens

def countProgram : Program := countParsed.program

/-- The variable and the values of the nodes are those of the first function. -/
def countResult : Expr :=
  .assign ⟨11, {}⟩ (some .add) (.ident ⟨5, {}⟩ "n")
    (.binary ⟨10, {}⟩ .div (.literal ⟨6, {}⟩ (.int 6))
      (.binary ⟨9, {}⟩ .add (.ident ⟨7, {}⟩ "n") (.literal ⟨8, {}⟩ (.int 2))))

def countBody : List Stmt :=
  [.whileLoop {} (.ident ⟨1, {}⟩ "n")
      (.expr {} (.assign ⟨4, {}⟩ (some .sub) (.ident ⟨2, {}⟩ "n") (.literal ⟨3, {}⟩ (.int 1)))),
    .ret {} (some countResult)]

def countFunction : Item := .function ⟨{}, .int, "f", [⟨⟨0, {}⟩, .int, "n", none⟩]⟩ countBody

set_option maxRecDepth 20000 in
theorem count_function : countProgram[0]? = some countFunction := by cbv

theorem count_checked : countParsed.errors.isEmpty = true ∧
    (check engine countProgram).findings.isEmpty = true := by decide +kernel

theorem count_accepted : Accepted engine countProgram where
  table := ⟨_, _, engine_ofSource⟩
  parsed := ⟨countTokens, List.isEmpty_iff.mp count_checked.1, rfl⟩
  checked f hf := by
    rw [List.isEmpty_iff.mp count_checked.2] at hf
    cases hf

structure CountFacts (a : Analysis) : Prop where
  refs : a.refs.entries = [(7, 0), (5, 0), (2, 0), (1, 0)]
  vars : a.vars = #[⟨"n", .int, .param, false, none, {}⟩]
  function : a.functions[0]? = some ⟨"f", .int, [⟨"n", .int, none⟩], true, {}⟩
  definition : a.definition? 0 = some 0

theorem count_facts : CountFacts (check engine countProgram).analysis := by
  constructor <;> decide +kernel

section CountFacts

variable {a : Analysis} (h : CountFacts a)

include h

theorem CountFacts.hasExpr : a.HasExpr countProgram countResult := by
  refine ⟨0, _, 0, _, countBody, countResult, h.function, rfl, h.definition, count_function, ?_,
    Expr.self_mem_parts _⟩
  simp [countBody, Stmt.exprsOf, Stmt.exprs]

theorem CountFacts.info {info : VarInfo} (hinfo : a.vars[var]? = some info) :
    info = ⟨"n", .int, .param, false, none, {}⟩ := by
  have hmem := Array.mem_of_getElem? hinfo
  rw [h.vars] at hmem
  simpa using hmem

theorem CountFacts.constsHold (σ : Store) : ConstsHold a [0] σ := by
  intro var _ info n hinfo hvalue
  rw [h.info hinfo] at hvalue
  cases hvalue

theorem CountFacts.localInts : LocalInts a [0] := by
  intro var hvar
  obtain rfl := mem_singleton.mp hvar
  exact ⟨_, by rw [h.vars]; rfl, by simp, rfl⟩

theorem CountFacts.intExpr : Machine.IntExpr engine a [0] countResult := by
  have hname (id : NodeId) (hid : a.refs.entries.lookup id = some 0) :
      Machine.IntName engine a [0] id "n" := .inl ⟨0, mem_singleton.mpr rfl, hid⟩
  intro p hp
  simp only [countResult, Expr.parts, mem_cons, mem_append, not_mem_nil, or_false] at hp
  rcases hp with rfl | rfl | rfl | rfl | rfl | rfl | rfl
  · trivial
  · exact hname 5 (by rw [h.refs]; rfl)
  · trivial
  · rfl
  · trivial
  · exact hname 7 (by rw [h.refs]; rfl)
  · rfl

end CountFacts

def countState : GenState := { locals := [(0, -4)] }

theorem countState_ok (a : Analysis) : countState.Ok a fun _ => none where
  labels label d hd := by cases hd
  funcLabels p hp := by cases hp
  funcsNodup := .nil
  defined p hp := by cases hp

theorem CountFacts.shows {a : Analysis} (h : CountFacts a) :
    Machine.Shows a [0] countState.locals countState.depth [.var 0] where
  place var hvar := by
    obtain rfl := mem_singleton.mp hvar
    exact ⟨-4, 0, rfl, rfl, rfl⟩
  once i j var hi hj := by
    have hzero {k : Nat} (hk : [Machine.Cell.var 0][k]? = some (.var var)) : k = 0 := by
      have hlt := (List.getElem?_eq_some_iff.mp hk).1
      simpa using hlt
    rw [hzero hi, hzero hj]
  kind var bottom info hbottom hinfo := by
    rw [h.info hinfo]
    simp

theorem count_generated : (expr (Accepted.context engine countProgram) ⟨0, none, 0⟩ countResult
    countState).isOk = true := by decide +kernel

end Sample

namespace Accepted

open Machine

variable {engine : EngineTable} {program : Program}

/-- **The code of an integer expression computes its value.** An expression of a program without errors,
on integer variables `vars` and constants, is evaluated to an integer unless it divides by zero. Code is
generated for it unless an offset does not fit 32 bits, and comes to its end exactly then, whatever else
is on the stack. Its constant parts have the values that the tables hold, and logical operators give
zero or one. -/
theorem int_expr_correct (h : Accepted engine program) {vars : List VarId} {e : Expr}
    (he : (check engine program).analysis.HasExpr program e)
    (hlocals : LocalInts (check engine program).analysis vars)
    (hint : IntExpr engine (check engine program).analysis vars e) {f : Frame} {s : GenState}
    {E : Depths} (hs : s.Ok (check engine program).analysis E) {F : List Cell}
    (hshows : Shows (check engine program).analysis vars s.locals s.depth F) (calls : Calls) {σ : Store}
    (hσ : ConstsHold (check engine program).analysis vars σ) (back : List Nat) :
    ((∃ ops s', Gen.expr (context engine program) f e s = .ok (ops, s') ∧
        RunsAs ops F (eval engine (check engine program).analysis calls e) σ back) ∨
      ∃ bytes, Gen.expr (context engine program) f e s = .error (.overflow bytes)) ∧
      (∀ p ∈ e.parts, ∀ v, (check engine program).analysis.valueOf p = some v →
        eval engine (check engine program).analysis calls p σ = .done (some v, σ)) ∧
      ∀ node op lhs rhs, Expr.binary node op lhs rhs ∈ e.parts → op = .logAnd ∨ op = .logOr →
        ∀ σ₁ v σ₂, eval engine (check engine program).analysis calls (.binary node op lhs rhs) σ₁ =
          .done (v, σ₂) → v = some (.int 0) ∨ v = some (.int 1) := by
  have hok := h.programOk
  have hexpr := hok.exprOk he
  have husable := hint.usable hok.vars hexpr
  have hc : ((context engine program).intsOnly vars).Ok := intsOnly_ok hok.vars h.engineOk
  have hlocals' : LocalInts ((check engine program).analysis.intsOnly vars) vars := hlocals
  have hgives : GivesInt (ConstsHold (check engine program).analysis vars)
      (eval engine (check engine program).analysis calls e) := by
    rw [← hint.eval_eq hok.vars]
    exact (hint.intsOnly hok.vars).givesInt hc.vars hlocals' husable
  have hmeets := hint.meets (c := context engine program) (f := f) hok.vars h.engineOk rfl hlocals hexpr hs
    hshows calls 0 hσ back
  refine ⟨(hmeets.mono fun _ _ => .of_follows hgives hσ).ok_or_overflow, fun p hp v hv => ?_, ?_⟩
  · have hpart : IntExpr engine (check engine program).analysis vars p :=
      fun q hq => hint q (Expr.mem_parts_trans hq hp)
    have hpartOk : ExprOk engine (check engine program).analysis p :=
      fun q hq => hexpr q (Expr.mem_parts_trans hq hp)
    rw [← hpart.eval_eq hok.vars]
    exact eval_of_valueOf hc.vars hlocals' (hpart.usable hok.vars hpartOk)
      ((hpart.intsOnly hok.vars).simple hc.vars fun _ => False) hv hσ
  · intro node op lhs rhs _ hop σ₁ v σ₂ heval
    exact eval_logical hop heval

theorem int_expr_correct_count : ∃ ops s',
    Gen.expr (context Sample.engine Sample.countProgram) ⟨0, none, 0⟩ Sample.countResult
      Sample.countState = .ok (ops, s') ∧
    RunsAs ops [.var 0] (eval Sample.engine (check Sample.engine Sample.countProgram).analysis
      (fun _ _ => .timeout) Sample.countResult) (fun _ => 2) [] := by
  have h := Sample.count_facts
  have hcorrect := int_expr_correct (f := ⟨0, none, 0⟩) Sample.count_accepted h.hasExpr h.localInts h.intExpr
    (Sample.countState_ok _) h.shows (fun _ _ => .timeout) (h.constsHold fun _ => 2) []
  rcases hcorrect.1 with hruns | ⟨bytes, hfault⟩
  · exact hruns
  · have hgenerated := Sample.count_generated
    rw [hfault] at hgenerated
    cases hgenerated

end Accepted
end Nwscript
