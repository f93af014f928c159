import Nwscript.Proofs.Code.Accepted

/-! # Tables of programs without errors

The tables of a program without errors have an entry for every node that code generation asks about, the
values in them are of the types in them, and code for an expression pushes a value of its type. -/

open List Option

namespace Nwscript

open Gen

/-! ## Declarators -/

mutual

def Stmt.declarators : Stmt → List Declarator
  | .block _ body | .switch _ _ body => Stmt.declaratorsOf body
  | .var _ decl => decl.vars
  | .ifThen _ _ s | .whileLoop _ _ s | .doWhile _ s _ | .forLoop _ _ _ _ s => s.declarators
  | .ifElse _ _ yes no => yes.declarators ++ no.declarators
  | _ => []

def Stmt.declaratorsOf : List Stmt → List Declarator
  | [] => []
  | s :: ss => s.declarators ++ Stmt.declaratorsOf ss

end

def Item.declarators : Item → List Declarator
  | .function _ body => Stmt.declaratorsOf body
  | .global decl => decl.vars
  | _ => []

theorem Stmt.mem_declaratorsOf {body : List Stmt} {d : Declarator} :
    d ∈ declaratorsOf body ↔ ∃ st ∈ body, d ∈ st.declarators := by
  induction body with
  | nil => simp [declaratorsOf]
  | cons st rest ih => simp [declaratorsOf, ih]

variable {engine : EngineTable} {a : Analysis} {d : Declarator}

def IsDeclared (a : Analysis) (node : NodeId) : Prop := ∃ var, a.decls.get? node = some var

theorem DeclaratorsOk.isDeclared {visible : List VarId} {ds : List Declarator}
    (h : DeclaratorsOk engine a visible ds) (hd : d ∈ ds) : IsDeclared a d.node.id := by
  induction ds generalizing visible with
  | nil => cases hd
  | cons first ds ih =>
    obtain ⟨var, info, hfirst, hrest⟩ := h
    rcases mem_cons.mp hd with rfl | hd
    · exact ⟨var, hfirst.decl⟩
    · exact ih hrest hd

theorem StmtOk.isDeclared {ctx : BodyContext} {visible : List VarId} {st : Stmt}
    (h : StmtOk engine a ctx visible st) (hd : d ∈ st.declarators) : IsDeclared a d.node.id := by
  induction st using Stmt.inductionOn generalizing ctx visible with rw [StmtOk] at h
  | block pos body ih =>
    obtain ⟨st, hst, hd⟩ := Stmt.mem_declaratorsOf.mp hd
    obtain ⟨inner, hinner⟩ := h.of_mem hst
    exact ih st hst hinner hd
  | var pos decl =>
    exact h.isDeclared hd
  | ifThen pos cond yes ih =>
    exact ih h.2 hd
  | ifElse pos cond yes no ihy ihn =>
    rcases mem_append.mp hd with hd | hd
    · exact ihy h.2.1 hd
    · exact ihn h.2.2 hd
  | whileLoop pos cond body ih =>
    exact ih h.2 hd
  | doWhile pos body cond ih =>
    exact ih h.1 hd
  | forLoop pos init cond next body ih =>
    exact ih h.2.2.2 hd
  | switch pos value body ih =>
    obtain ⟨type, -, -, hbody⟩ := h
    obtain ⟨st, hst, hd⟩ := Stmt.mem_declaratorsOf.mp hd
    rcases hbody.of_mem hst with ⟨inner, hinner⟩ | ⟨pos, label, inner, rfl, -⟩ | ⟨pos, rfl⟩
    · exact ih st hst hinner hd
    · cases hd
    · cases hd
  | _ => cases hd

theorem ParamsOk.isDeclared {visible inner : List VarId} {ps : List Param} {qs : List FuncParam}
    (h : ParamsOk a visible ps qs inner) {p : Param} (hp : p ∈ ps) : IsDeclared a p.node.id := by
  induction ps generalizing visible qs with
  | nil => cases hp
  | cons first ps ih =>
    cases qs with
    | nil => exact h.elim
    | cons q qs =>
      obtain ⟨var, info, hvar, -, -, -, -, hrest⟩ := h
      rcases mem_cons.mp hp with rfl | hp
      · exact ⟨var, hvar⟩
      · exact ih hrest hp

/-! ## Expressions -/

/-- What the tables have for an expression: a type, a value of this type if any, what a name stands for,
and what a call calls. -/
structure Analysis.Covers (a : Analysis) (e : Expr) : Prop where
  typed : ∃ type, a.typeOf e = some type
  valued : ∀ v, a.valueOf e = some v → a.typeOf e = some v.type
  named : ∀ node name, e = .ident node name →
    (∃ var, a.refs.get? node.id = some var) ∨ ∃ v, a.consts.get? node.id = some v
  constant : ∀ node name var, e = .ident node name → a.refs.get? node.id = some var →
    ∃ info, a.vars[var]? = some info ∧
      (info.isConst = true → ∃ v, info.value = some v ∧ a.consts.get? node.id = some v)
  called : ∀ node name args, e = .call node name args → ∃ callee, a.calls.get? node.id = some callee

theorem ExprOk.covers {e : Expr} (h : ExprOk engine a e) (hvars : a.VarsOk) : a.Covers e := by
  obtain ⟨type, value, hrule, htype, hvalue⟩ := h e e.self_mem_parts
  refine ⟨⟨type, htype⟩, fun v hv => ?_, ?_, ?_, ?_⟩
  · rw [htype, hasTypedValue h hvars v type hv htype]
  · rintro node name rfl
    cases hrule with
    | «variable» href _ => exact .inl ⟨_, href⟩
    | engineConstant _ _ => exact .inr ⟨_, hvalue⟩
  · rintro node name var rfl href
    cases hrule with
    | @«variable» _ _ _ info href' hinfo =>
      cases href.symm.trans href'
      refine ⟨info, hinfo, fun hconst => ?_⟩
      rw [(hvars _ _ hinfo).isConst] at hconst
      obtain ⟨v, hv⟩ := isSome_iff_exists.mp hconst
      exact ⟨v, hv, hvalue.trans hv⟩
    | engineConstant hnone _ =>
      cases href.symm.trans hnone
  · rintro node name args rfl
    cases hrule with
    | userCall hcall _ _ _ _ => exact ⟨_, hcall⟩
    | engineCall hcall _ _ => exact ⟨_, hcall⟩

def Analysis.localsOf (a : Analysis) (e : Expr) : List VarId :=
  (e.parts.filterMap fun p => a.refs.get? p.id).filter fun var => !a.globals.contains var

theorem ExprOk.usable {e : Expr} (h : ExprOk engine a e) : Usable engine a (a.localsOf e) e := by
  refine ⟨h, fun p hp var href => ?_⟩
  by_cases hglobal : var ∈ a.globals
  · exact .inr hglobal
  · exact .inl (mem_filter.mpr ⟨mem_filterMap.mpr ⟨p, hp, href⟩, by simpa using hglobal⟩)

namespace Accepted

variable {program : Program}

theorem bodyOk (h : Accepted engine program) {decl : FunctionDecl} {body : List Stmt}
    (hitem : .function decl body ∈ program) : ∃ (f : FuncInfo) (visible : List VarId),
      ParamsOk (check engine program).analysis [] decl.params f.params visible ∧ ∀ st ∈ body,
        ∃ inner, StmtOk engine (check engine program).analysis { ret := f.ret } inner st := by
  obtain ⟨index, hindex⟩ := mem_iff_getElem?.mp hitem
  obtain ⟨f, -, hfunction⟩ := h.functionOk hindex
  obtain ⟨visible, hparams, hbody⟩ := hfunction.scope
  exact ⟨f, visible, hparams, fun st => hbody.of_mem⟩

theorem exprOk (h : Accepted engine program) {p : Expr} (hp : p ∈ program.exprs) :
    ExprOk engine (check engine program).analysis p := by
  obtain ⟨item, hitem, hparts⟩ := mem_flatMap.mp hp
  obtain ⟨e, he, hpart⟩ := mem_flatMap.mp hparts
  suffices hok : ExprOk engine (check engine program).analysis e from
    fun q hq => hok q (Expr.mem_parts_trans hq hpart)
  cases item with
  | «function» decl body =>
    obtain ⟨f, visible, -, hbody⟩ := h.bodyOk hitem
    obtain ⟨st, hst, he⟩ := Stmt.mem_exprsOf.mp he
    obtain ⟨inner, hinner⟩ := hbody st hst
    obtain ⟨_, husable⟩ := hinner.usable he
    exact husable.ok
  | «global» decl =>
    obtain ⟨d, hd, hinit⟩ := mem_flatMap.mp he
    obtain ⟨var, info, hvar, -⟩ := h.programOk.global decl hitem d hd
    exact (hvar.init e (mem_toList.mp hinit)).ok
  | _ => cases he

theorem isDeclared (h : Accepted engine program) {item : Item} (hitem : item ∈ program)
    (hd : d ∈ item.declarators) : IsDeclared (check engine program).analysis d.node.id := by
  cases item with
  | «function» decl body =>
    obtain ⟨f, visible, -, hbody⟩ := h.bodyOk hitem
    obtain ⟨st, hst, hd⟩ := Stmt.mem_declaratorsOf.mp hd
    obtain ⟨inner, hinner⟩ := hbody st hst
    exact hinner.isDeclared hd
  | «global» decl =>
    obtain ⟨var, info, hvar, -⟩ := h.programOk.global decl hitem d hd
    exact ⟨var, hvar.decl⟩
  | _ => cases hd

/-- **The tables of a program without errors are complete**, and code for an expression changes the depth
by the size of its type if structures are small, wherever its variables have places. -/
theorem tables_complete (h : Accepted engine program) :
    (∀ p ∈ program.exprs, (check engine program).analysis.Covers p) ∧
    (∀ item ∈ program, ∀ d ∈ item.declarators, IsDeclared (check engine program).analysis d.node.id) ∧
    (∀ decl body, Item.function decl body ∈ program → ∀ p ∈ decl.params,
      IsDeclared (check engine program).analysis p.node.id) ∧
    ((check engine program).analysis.structs.Small → ∀ p ∈ program.exprs, ∀ type,
      (check engine program).analysis.typeOf p = some type → ∀ (f : Frame) (s : GenState) (E : Depths),
      s.Ok (check engine program).analysis E →
      Placed (context engine program) ((check engine program).analysis.localsOf p) s.locals →
      (∃ ops s', Gen.expr (context engine program) f p s = .ok (ops, s') ∧
          s'.depth = s.depth + (check engine program).analysis.sizeOf type) ∨
        ∃ bytes, Gen.expr (context engine program) f p s = .error (.overflow bytes)) := by
  refine ⟨fun p hp => (h.exprOk hp).covers h.programOk.vars, fun item hitem d => h.isDeclared hitem, ?_, ?_⟩
  · intro decl body hitem p hp
    obtain ⟨f, visible, hparams, -⟩ := h.bodyOk hitem
    exact hparams.isDeclared hp
  · intro hsmall p hp type htype f s E hs hplaced
    have hmeets := compiles_expr (c := context engine program) (f := f) (h.contextOk hsmall)
      (h.exprOk hp).usable htype E s hs hplaced
    have hdepth : Ends Overflows (Gen.expr (context engine program) f p) s fun _ s' =>
        s'.depth = s.depth + (check engine program).analysis.sizeOf type :=
      hmeets.mono fun ops s' hprogress => hprogress.choose_spec.depth_eq
    exact hdepth.ok_or_overflow

/-- Among the expressions of the sample is a call, which pushes an integer. -/
theorem tables_complete_sample :
    (∀ item ∈ Sample.program, ∀ d ∈ item.declarators,
      IsDeclared (check Sample.engine Sample.program).analysis d.node.id) ∧
    (∀ decl body, Item.function decl body ∈ Sample.program → ∀ p ∈ decl.params,
      IsDeclared (check Sample.engine Sample.program).analysis p.node.id) ∧
    ∃ p ∈ Sample.program.exprs, p.isCall = true ∧ (check Sample.engine Sample.program).analysis.Covers p ∧
      ∃ ops s', Gen.expr (context Sample.engine Sample.program) ⟨0, none, 0⟩ p {} = .ok (ops, s') ∧
        s'.depth = 4 := by
  obtain ⟨hcovers, hdeclared, hparams, hcode⟩ := tables_complete Sample.accepted
  have hread : Sample.program.exprs[10]?.map (fun e => (e.isCall,
      (check Sample.engine Sample.program).analysis.typeOf e,
      (check Sample.engine Sample.program).analysis.localsOf e,
      (Gen.expr (context Sample.engine Sample.program) ⟨0, none, 0⟩ e {}).isOk)) =
        some (true, some .int, [], true) := by decide +kernel
  obtain ⟨p, hget, hfacts⟩ := Option.map_eq_some_iff.mp hread
  simp only [Prod.mk.injEq] at hfacts
  obtain ⟨hcall, htype, hlocals, hok⟩ := hfacts
  have hp := List.mem_of_getElem? hget
  refine ⟨hdeclared, hparams, p, hp, hcall, hcovers p hp, ?_⟩
  have hstate : GenState.Ok (check Sample.engine Sample.program).analysis (fun _ => none) {} :=
    ⟨by simp, by simp, by simp, by simp⟩
  rcases hcode Sample.small p hp .int htype ⟨0, none, 0⟩ {} _ hstate (by simp [Placed, hlocals]) with
    ⟨ops, s', hrun, hdepth⟩ | ⟨bytes, herror⟩
  · exact ⟨ops, s', hrun, hdepth⟩
  · rw [herror] at hok
    cases hok

end Accepted
end Nwscript
