import Nwscript.Proofs.Code.Flow
import Nwscript.Proofs.Code.Typed
import Nwscript.Proofs.Trace.Reach

/-! # No call is dropped

Each call of a program without errors that is not inside a constant becomes one line, with two
exceptions. A return does not evaluate its value if the result of the function takes up no storage,
and without storage for global variables there is no routine that could run their initializers. -/

open List Option

namespace Nwscript

open Gen (PlacedRoutine)

/-! ## Calls of a tree -/

variable {e : Expr} {a : Analysis} {func : FuncId} {p : PlacedRoutine}
  {labels : List (FuncId × Label)}

namespace Expr

mutual

def liveCalls (a : Analysis) (e : Expr) : List Expr :=
  match a.valueOf e with
  | some _ => []
  | none =>
    match e with
    | .literal _ _ | .ident _ _ => []
    | .binary _ _ lhs rhs => liveCalls a lhs ++ liveCalls a rhs
    | .unary _ _ operand => liveCalls a operand
    | .step _ _ _ target => liveCalls a target
    | .call node name args => liveCallsOf a args ++ [.call node name args]
    | .assign _ _ target value => liveCalls a target ++ liveCalls a value
    | .field _ base _ => liveCalls a base
    | .conditional _ cond yes no => liveCalls a cond ++ liveCalls a yes ++ liveCalls a no

def liveCallsOf (a : Analysis) : List Expr → List Expr
  | [] => []
  | e :: es => liveCalls a e ++ liveCallsOf a es

end

theorem liveCallsOf_eq_flatMap (a : Analysis) (es : List Expr) :
    liveCallsOf a es = es.flatMap (liveCalls a) := by
  induction es with
  | nil => rw [liveCallsOf, flatMap_nil]
  | cons e es ih => rw [liveCallsOf, ih, flatMap_cons]

theorem liveCalls_eq_nil_of_value (h : (a.valueOf e).isSome = true) : e.liveCalls a = [] := by
  obtain ⟨value, hvalue⟩ := isSome_iff_exists.mp h
  unfold liveCalls
  rw [hvalue]

theorem liveCalls_eq_nil_of_root (a : Analysis) (h : e.root.isIdent = true) : e.liveCalls a = [] := by
  induction e using inductionOn with
  | ident node name =>
    rw [liveCalls]
    cases a.valueOf (.ident node name) <;> rfl
  | field node base name ih =>
    rw [liveCalls, ih h]
    cases a.valueOf (.field node base name) <;> rfl
  | _ => cases h

end Expr

mutual

def Stmt.evaluated (keeps : Bool) : Stmt → List Expr
  | .block _ body => evaluatedOf keeps body
  | .var _ decl => decl.vars.flatMap fun d => d.init.toList
  | .expr _ e => [e]
  | .ifThen _ cond yes => cond :: yes.evaluated keeps
  | .ifElse _ cond yes no => cond :: (yes.evaluated keeps ++ no.evaluated keeps)
  | .whileLoop _ cond body => cond :: body.evaluated keeps
  | .doWhile _ body cond => body.evaluated keeps ++ [cond]
  | .forLoop _ init cond next body =>
    init.toList ++ (cond.toList ++ (next.toList ++ body.evaluated keeps))
  | .switch _ value body => value :: evaluatedOf keeps body
  | .caseLabel _ label => [label]
  | .ret _ value => if keeps then value.toList else []
  | .defaultLabel _ | .breakOut _ | .continueLoop _ | .empty _ => []

def Stmt.evaluatedOf (keeps : Bool) : List Stmt → List Expr
  | [] => []
  | s :: ss => s.evaluated keeps ++ evaluatedOf keeps ss

end

theorem Stmt.evaluatedOf_congr {body : List Stmt}
    (h : ∀ st ∈ body, st.evaluated true = st.exprs) : evaluatedOf true body = exprsOf body := by
  induction body with
  | nil => rw [evaluatedOf, exprsOf]
  | cons st rest ih =>
    rw [forall_mem_cons] at h
    rw [evaluatedOf, exprsOf, h.1, ih h.2]

theorem Stmt.evaluated_true (st : Stmt) : st.evaluated true = st.exprs := by
  induction st using Stmt.inductionOn with
  | block pos body ih => rw [evaluated, exprs, evaluatedOf_congr ih]
  | ifThen pos cond yes ih => rw [evaluated, exprs, ih]
  | ifElse pos cond yes no ihy ihn => rw [evaluated, exprs, ihy, ihn]
  | whileLoop pos cond body ih => rw [evaluated, exprs, ih]
  | doWhile pos body cond ih => rw [evaluated, exprs, ih]
  | forLoop pos init cond next body ih => rw [evaluated, exprs, ih]
  | switch pos value body ih => rw [evaluated, exprs, evaluatedOf_congr ih]
  | _ => rfl

theorem Stmt.evaluatedOf_true (body : List Stmt) : evaluatedOf true body = exprsOf body :=
  evaluatedOf_congr fun st _ => st.evaluated_true

/-! ## Calls among the events -/

def Event.isCall : Event → Bool
  | .call _ _ | .action _ _ _ => true
  | _ => false

def Op.isCall : Op → Bool
  | .jump .call _ | .instr (.action _ _) => true
  | _ => false

def Analysis.IsDefined (a : Analysis) (func : FuncId) : Prop :=
  ∃ f, a.functions[func]? = some f ∧ f.defined = true

inductive Event.OfCall (a : Analysis) : Expr → Event → Prop where
  | user {node name args func} :
      a.calls.get? node.id = some (.user func) → a.IsDefined func →
      OfCall a (.call node name args) (.call (some node.id) func)
  | engine {node name args ordinal} :
      a.calls.get? node.id = some (.engine ordinal) →
      OfCall a (.call node name args) (.action node.id ordinal args.length)

def CallsMatch (a : Analysis) (events : List Event) (es : List Expr) : Prop :=
  ∃ order, order.Perm es ∧ List.Forall₂ (Event.OfCall a) order (events.filter Event.isCall)

namespace CallsMatch

variable {a : Analysis} {events events' : List Event} {es es' : List Expr}

theorem nil (h : events.filter Event.isCall = []) : CallsMatch a events [] :=
  ⟨[], .refl _, by rw [h]; exact .nil⟩

theorem append (h : CallsMatch a events es) (h' : CallsMatch a events' es') :
    CallsMatch a (events ++ events') (es ++ es') := by
  obtain ⟨order, hperm, hcalls⟩ := h
  obtain ⟨order', hperm', hcalls'⟩ := h'
  refine ⟨order ++ order', hperm.append hperm', ?_⟩
  rw [filter_append]
  exact rel_append hcalls hcalls'

theorem perm (h : CallsMatch a events es) (hp : es.Perm es') : CallsMatch a events es' := by
  obtain ⟨order, hperm, hcalls⟩ := h
  exact ⟨order, hperm.trans hp, hcalls⟩

theorem quiet (h : CallsMatch a events es) (hquiet : events'.filter Event.isCall = []) :
    CallsMatch a (events ++ events') es := by
  have happend := h.append (nil hquiet)
  rwa [append_nil] at happend

theorem call {event : Event} (h : event.OfCall a e) : CallsMatch a [event] [e] := by
  refine ⟨[e], .refl _, ?_⟩
  have hcall : event.isCall = true := by cases h <;> rfl
  simpa [hcall] using h

theorem flatMap {α : Type} {f : α → List Event} {g : α → List Expr} {xs : List α}
    (h : ∀ x ∈ xs, CallsMatch a (f x) (g x)) : CallsMatch a (xs.flatMap f) (xs.flatMap g) := by
  induction xs with
  | nil => exact nil rfl
  | cons x xs ih =>
    rw [forall_mem_cons] at h
    rw [flatMap_cons, flatMap_cons]
    exact h.1.append (ih h.2)

theorem isDefined (h : CallsMatch a events es) {node : Option NodeId}
    (hmem : Event.call node func ∈ events) : a.IsDefined func := by
  obtain ⟨order, -, hcalls⟩ := h
  obtain ⟨e, -, hof⟩ := exists_of_mem_right hcalls (mem_filter.mpr ⟨hmem, rfl⟩)
  cases hof with
  | user _ hdefined => exact hdefined

end CallsMatch

namespace GenContext

variable {c : GenContext} {visible : List VarId}

theorem filter_operatorEvents (op : BinOp) (lhs rhs : Option Ty) :
    (c.operatorEvents op lhs rhs).filter Event.isCall = [] := by
  unfold operatorEvents
  split
  · split <;> rfl
  · rfl

theorem filter_cutEvents (type : Option Ty) (name : String) :
    (c.cutEvents type name).filter Event.isCall = [] := by
  unfold cutEvents
  split
  · split <;> rfl
  · rfl

theorem root_isIdent_of_placeOf {part : Gen.Part} (h : Gen.placeOf a e = some part) :
    e.root.isIdent = true := by
  induction e using Expr.inductionOn generalizing part with
  | ident node name => rfl
  | field node base name ih =>
    simp only [Gen.placeOf, bind_eq_bind, bind_eq_some_iff] at h
    obtain ⟨whole, hwhole, -⟩ := h
    exact ih hwhole
  | _ => cases h

theorem callsMatch_args {args : List Expr}
    (h : ∀ e ∈ args, CallsMatch c.analysis (c.exprEvents e) (e.liveCalls c.analysis)) {n : Nat}
    (hn : args.length ≤ n) : CallsMatch c.analysis ((c.argEvents args).take n).reverse.flatten
      (Expr.liveCallsOf c.analysis args) := by
  have htake : (c.argEvents args).take n = args.map c.exprEvents := by
    rw [argEvents_eq_map]
    exact take_of_length_le (by simpa using hn)
  have hevents : (args.map c.exprEvents).reverse.flatten = args.reverse.flatMap c.exprEvents := by
    rw [← map_reverse, flatMap_def]
  rw [htake, hevents, Expr.liveCallsOf_eq_flatMap]
  have hreverse : ∀ e ∈ args.reverse,
      CallsMatch c.analysis (c.exprEvents e) (e.liveCalls c.analysis) :=
    fun e he => h e (mem_reverse.mp he)
  exact (CallsMatch.flatMap hreverse).perm ((reverse_perm args).flatMap_right _)

variable {node : Node} {type : Ty} {slot : Option Int} {keeps : Bool}

theorem callsMatch_call (hengine : c.engine.Ok) {name : String} {args : List Expr}
    {value : Option Value} (hrule : TypeRule c.engine c.analysis (.call node name args) type value)
    (h : ∀ e ∈ args, CallsMatch c.analysis (c.exprEvents e) (e.liveCalls c.analysis)) :
    CallsMatch c.analysis
      (((c.argEvents args).take (c.pushedArgs node.id args.length)).reverse.flatten ++
        c.callEvents node.id args.length)
      (Expr.liveCallsOf c.analysis args ++ [.call node name args]) := by
  cases hrule with
  | @userCall _ _ _ func f hcall hinfo hdefined _ hargs =>
    have hpushed : c.pushedArgs node.id args.length = f.params.length := by
      simp [pushedArgs, hcall, hinfo]
    have hevent : c.callEvents node.id args.length = [.call (some node.id) func] := by
      simp [callEvents, hcall]
    have hlength : args.length ≤ f.params.length := by simpa using hargs.length_le
    rw [hpushed, hevent]
    exact (callsMatch_args h hlength).append (.call (.user hcall ⟨f, hinfo, hdefined⟩))
  | @engineCall _ _ _ f hcall hinfo _ =>
    have hat := (hengine.functionAt? hinfo).1
    have hpushed : c.pushedArgs node.id args.length = args.length := by simp [pushedArgs, hcall]
    have hevent : c.callEvents node.id args.length = [.action node.id f.ordinal args.length] := by
      simp [callEvents, hcall, hat]
    rw [hpushed, hevent]
    exact (callsMatch_args h (Nat.le_refl _)).append (.call (.engine hcall))

theorem callsMatch_assign {op : Option BinOp} {target value : Expr} {folded : Option Value}
    (hrule : TypeRule c.engine c.analysis (.assign node op target value) type folded)
    (hconst : c.analysis.valueOf (.assign node op target value) = none)
    (h : CallsMatch c.analysis (c.exprEvents value) (value.liveCalls c.analysis)) :
    CallsMatch c.analysis (c.exprEvents (.assign node op target value))
      ((Expr.assign node op target value).liveCalls c.analysis) := by
  have hroot : target.root.isIdent = true := by
    cases hrule with
    | assign hroot => exact hroot
    | compound hroot => exact hroot
  unfold exprEvents Expr.liveCalls
  rw [hconst]
  dsimp only
  rw [Expr.liveCalls_eq_nil_of_root _ hroot, nil_append]
  cases op with
  | none => exact h.quiet rfl
  | some op =>
    have hload : CallsMatch c.analysis [.load (c.partSize target)] [] := .nil rfl
    exact ((hload.append h).quiet (filter_operatorEvents _ _ _)).quiet rfl

theorem callsMatch_step {st : Step} {order : StepOrder} {target : Expr} {folded : Option Value}
    (hrule : TypeRule c.engine c.analysis (.step node st order target) type folded)
    (hconst : c.analysis.valueOf (.step node st order target) = none) :
    CallsMatch c.analysis (c.exprEvents (.step node st order target))
      ((Expr.step node st order target).liveCalls c.analysis) := by
  have hroot : target.root.isIdent = true := by
    cases hrule with
    | step hident =>
      cases target with
      | ident node name => rfl
      | _ => cases hident
  rw [exprEvents, Expr.liveCalls, hconst]
  dsimp only
  rw [Expr.liveCalls_eq_nil_of_root _ hroot]
  exact .nil rfl

theorem callsMatch_field {base : Expr} {name : String}
    (hconst : c.analysis.valueOf (.field node base name) = none)
    (h : CallsMatch c.analysis (c.exprEvents base) (base.liveCalls c.analysis)) :
    CallsMatch c.analysis (c.exprEvents (.field node base name))
      ((Expr.field node base name).liveCalls c.analysis) := by
  rw [exprEvents, Expr.liveCalls, hconst]
  dsimp only
  cases hplace : Gen.placeOf c.analysis (.field node base name) with
  | some part =>
    have hroot : (Expr.field node base name).root.isIdent = true := root_isIdent_of_placeOf hplace
    have hroot : base.root.isIdent = true := hroot
    rw [Expr.liveCalls_eq_nil_of_root _ hroot]
    exact .nil rfl
  | none => exact h.quiet (filter_cutEvents _ _)

/-- **The calls of an expression** are among its events once each. -/
theorem callsMatch_expr (hengine : c.engine.Ok) (h : Usable c.engine c.analysis visible e) :
    CallsMatch c.analysis (c.exprEvents e) (e.liveCalls c.analysis) := by
  induction e using Expr.childInduction with
  | h e ih =>
    have ih : ∀ child ∈ e.children, CallsMatch c.analysis (c.exprEvents child)
        (child.liveCalls c.analysis) := fun child hchild => ih child hchild (h.child hchild)
    obtain ⟨type, htype⟩ := h.typeOf_isSome
    have hrule := h.rule htype
    cases hconst : c.analysis.valueOf e with
    | some value =>
      unfold exprEvents Expr.liveCalls
      rw [hconst]
      exact .nil rfl
    | none =>
      cases e with
      | literal node value =>
        rw [exprEvents, Expr.liveCalls, hconst]
        exact .nil rfl
      | ident node name =>
        rw [exprEvents, Expr.liveCalls, hconst]
        exact .nil rfl
      | binary node op lhs rhs =>
        have hl := ih lhs (by simp)
        have hr := ih rhs (by simp)
        rw [exprEvents, Expr.liveCalls, hconst]
        dsimp only
        split
        · exact (hl.quiet rfl).append hr
        · exact (hl.append hr).quiet (filter_operatorEvents _ _ _)
      | unary node op operand =>
        rw [exprEvents, Expr.liveCalls, hconst]
        exact ih operand (by simp)
      | step node st order target => exact callsMatch_step hrule hconst
      | call node name args =>
        rw [exprEvents, Expr.liveCalls, hconst]
        exact callsMatch_call hengine hrule fun e he => ih e (by simpa [Expr.children] using he)
      | assign node op target value =>
        exact callsMatch_assign hrule hconst (ih value (by simp))
      | field node base name => exact callsMatch_field hconst (ih base (by simp))
      | conditional node cond yes no =>
        have hc := ih cond (by simp)
        have hy := ih yes (by simp)
        have hn := ih no (by simp)
        rw [exprEvents, Expr.liveCalls, hconst]
        exact (hc.append hy).append hn

/-! ## Statements -/

theorem filter_testEvents (body : List Stmt) : (body.flatMap testEvents).filter Event.isCall = [] := by
  induction body with
  | nil => rfl
  | cons st rest ih =>
    have hfirst : (testEvents st).filter Event.isCall = [] := by cases st <;> rfl
    rw [flatMap_cons, filter_append, hfirst, ih, append_nil]

abbrev allCalls (c : GenContext) (es : List Expr) : List Expr := es.flatMap (Expr.liveCalls c.analysis)

theorem callsMatch_optional (hengine : c.engine.Ok) {e : Option Expr}
    (h : ∀ e' ∈ e, Usable c.engine c.analysis visible e') :
    CallsMatch c.analysis (c.optionalEvents e) (c.allCalls e.toList) := by
  cases e with
  | none => exact .nil rfl
  | some e =>
    have he := callsMatch_expr hengine (h e rfl)
    simpa [optionalEvents] using he

theorem callsMatch_init (hengine : c.engine.Ok) (size : Int) {init : Option Expr}
    (h : ∀ e ∈ init, Usable c.engine c.analysis visible e) :
    CallsMatch c.analysis (c.initEvents size init) (c.allCalls init.toList) := by
  cases init with
  | none => exact .nil rfl
  | some e =>
    have hstore : [Event.store size].filter Event.isCall = [] := rfl
    have he := (callsMatch_expr hengine (h e rfl)).quiet hstore
    simpa [initEvents] using he

theorem callsMatch_declarators (hengine : c.engine.Ok) {ds : List Declarator}
    (h : DeclaratorsOk c.engine c.analysis visible ds) :
    CallsMatch c.analysis (ds.flatMap c.declEvents) (c.allCalls (ds.flatMap fun d => d.init.toList)) := by
  induction ds generalizing visible with
  | nil => exact .nil rfl
  | cons d ds ih =>
    obtain ⟨var, info, hd, hds⟩ := h
    have hinit := callsMatch_init hengine (c.declSize d) fun e he => (hd.init e he).toUsable
    have hall := hinit.append (ih hds)
    rwa [allCalls, ← flatMap_append] at hall

theorem callsMatch_return (hengine : c.engine.Ok) {ret : Ty}
    (hkeeps : keeps = (slot.isSome || decide (ret = .void))) {value : Option Expr}
    (h : ReturnOk c.engine c.analysis ret visible value) :
    CallsMatch c.analysis (c.returnEvents slot value)
      (c.allCalls (if keeps then value.toList else [])) := by
  cases value with
  | none =>
    cases keeps with
    | true => exact .nil rfl
    | false => exact .nil rfl
  | some e =>
    obtain ⟨hret, hvalue⟩ := h
    have hkeeps : keeps = slot.isSome := by simpa [hret] using hkeeps
    subst hkeeps
    cases slot with
    | none => exact .nil rfl
    | some size =>
      have hinit : ∀ e' ∈ some e, Usable c.engine c.analysis visible e' := by
        intro e' he
        cases he
        exact hvalue.toUsable
      exact callsMatch_init hengine size hinit

theorem callsMatch_stmts {body : List Stmt}
    (h : ∀ st ∈ body, CallsMatch c.analysis (c.stmtEvents slot st) (c.allCalls (st.evaluated keeps))) :
    CallsMatch c.analysis (c.stmtsEvents slot body) (c.allCalls (Stmt.evaluatedOf keeps body)) := by
  induction body with
  | nil =>
    rw [stmtsEvents, Stmt.evaluatedOf]
    exact .nil rfl
  | cons st rest ih =>
    rw [forall_mem_cons] at h
    rw [stmtsEvents, Stmt.evaluatedOf, allCalls, flatMap_append]
    exact h.1.append (ih h.2)

/-- **The calls of a statement** are among its events once each, unless they are in the value of a
return that is dropped. -/
theorem callsMatch_stmt (hengine : c.engine.Ok) {ctx : BodyContext} {st : Stmt}
    (h : StmtOk c.engine c.analysis ctx visible st)
    (hkeeps : keeps = (slot.isSome || decide (ctx.ret = .void))) :
    CallsMatch c.analysis (c.stmtEvents slot st) (c.allCalls (st.evaluated keeps)) := by
  induction st using Stmt.inductionOn generalizing ctx visible with
    (rw [StmtOk] at h; rw [stmtEvents, Stmt.evaluated])
  | block pos body ih =>
    refine callsMatch_stmts fun st hst => ?_
    obtain ⟨inner, hinner⟩ := h.of_mem hst
    exact ih st hst hinner hkeeps
  | var pos decl =>
    exact callsMatch_declarators hengine h
  | expr pos e =>
    simpa using callsMatch_expr hengine h
  | ifThen pos cond yes ih =>
    simpa using (callsMatch_expr hengine h.1.toUsable).append (ih h.2 hkeeps)
  | ifElse pos cond yes no ihy ihn =>
    simpa using ((callsMatch_expr hengine h.1.toUsable).append (ihy h.2.1 hkeeps)).append (ihn h.2.2 hkeeps)
  | whileLoop pos cond body ih =>
    simpa using (callsMatch_expr hengine h.1.toUsable).append (ih h.2 hkeeps)
  | doWhile pos body cond ih =>
    simpa using (ih h.1 hkeeps).append (callsMatch_expr hengine h.2.toUsable)
  | forLoop pos init cond next body ih =>
    obtain ⟨hinit, hcond, hnext, hbody⟩ := h
    have hi := callsMatch_optional hengine hinit
    have hc := callsMatch_optional hengine fun e he => (hcond e he).toUsable
    have hn := callsMatch_optional hengine hnext
    refine (((hi.append hc).append (ih hbody hkeeps)).append hn).perm ?_
    simp only [allCalls, flatMap_append, append_assoc]
    exact (perm_append_comm.append_left _).append_left _
  | switch pos value body ih =>
    obtain ⟨type, hvalue, -, hbody⟩ := h
    have hstmts : CallsMatch c.analysis (c.stmtsEvents slot body)
        (c.allCalls (Stmt.evaluatedOf keeps body)) := by
      refine callsMatch_stmts fun st hst => ?_
      rcases hbody.of_mem hst with ⟨inner, hinner⟩ | ⟨pos, label, _, rfl, hlabel⟩ | ⟨pos, rfl⟩
      · exact ih st hst hinner hkeeps
      · rw [stmtEvents, Stmt.evaluated, allCalls, flatMap_singleton,
          Expr.liveCalls_eq_nil_of_value hlabel.constant]
        exact .nil rfl
      · rw [stmtEvents, Stmt.evaluated]
        exact .nil rfl
    simpa using ((callsMatch_expr hengine hvalue.toUsable).quiet (filter_testEvents body)).append hstmts
  | ret pos value =>
    exact callsMatch_return hengine hkeeps h
  | caseLabel pos label => cases h
  | defaultLabel pos => cases h
  | breakOut pos =>
    exact .nil rfl
  | continueLoop pos =>
    exact .nil rfl
  | empty pos =>
    exact .nil rfl

end GenContext

/-! ## Functions that are called -/

theorem ProgramOk.body {engine : EngineTable} {items : Program} (h : ProgramOk engine a items)
    {info : FuncInfo} {index : Nat} {decl : FunctionDecl} {body : List Stmt}
    (hfunc : a.IsDefined func) (hinfo : a.functions[func]? = some info)
    (hindex : a.definition? func = some index) (hitem : items[index]? = some (.function decl body)) :
    FunctionOk engine a decl body info := by
  obtain ⟨f, hf, hdefined⟩ := hfunc
  cases hinfo.symm.trans hf
  obtain ⟨index', decl', body', hindex', hitem', hok⟩ := h.defined func info hinfo hdefined
  cases hindex.symm.trans hindex'
  obtain ⟨rfl, rfl⟩ := Item.function.inj (Option.some.inj (hitem.symm.trans hitem'))
  exact hok

/-- The values that a function returns are evaluated: it has none, or its result takes up storage. -/
def Analysis.keepsReturns (a : Analysis) (info : FuncInfo) : Bool :=
  info.ret = .void || 0 < a.sizeOf info.ret

namespace GenContext

variable {c : GenContext} {items : Program}

theorem callsMatch_body (hengine : c.engine.Ok) {decl : FunctionDecl} {body : List Stmt}
    {info : FuncInfo} (h : FunctionOk c.engine c.analysis decl body info) :
    CallsMatch c.analysis (c.stmtsEvents (c.slotSize info) body)
      (c.allCalls (Stmt.evaluatedOf (c.analysis.keepsReturns info) body)) := by
  obtain ⟨visible, -, hblock⟩ := h.scope
  refine callsMatch_stmts fun st hst => ?_
  obtain ⟨inner, hst⟩ := hblock.of_mem hst
  refine callsMatch_stmt hengine hst ?_
  unfold Analysis.keepsReturns slotSize
  split <;> simp_all

def globalInits (items : Program) : List Expr :=
  (Gen.globalDeclarators items).flatMap fun d => d.init.toList

theorem callsMatch_globals (hengine : c.engine.Ok) (hok : ProgramOk c.engine c.analysis items) :
    CallsMatch c.analysis ((Gen.globalDeclarators items).flatMap c.declEvents)
      (c.allCalls (globalInits items)) := by
  have hdecl : ∀ d ∈ Gen.globalDeclarators items,
      CallsMatch c.analysis (c.declEvents d) (c.allCalls d.init.toList) := by
    intro d hd
    obtain ⟨var, info, hvar, -⟩ := hok.globalDeclarator hd
    exact callsMatch_init hengine _ fun e he => (hvar.init e he).toUsable
  have hall := CallsMatch.flatMap hdecl
  rwa [allCalls, globalInits, flatMap_assoc]

end GenContext

namespace Outline

variable {c : GenContext} {items : Program} {labels : List (FuncId × Label)} {A : Assembly}

theorem isDefined_entry (hok : ProgramOk c.engine c.analysis items) {e : EntryPoint}
    (he : c.analysis.entry = some e) : c.analysis.IsDefined e.func := by
  obtain ⟨f, hf, hdefined, -⟩ := hok.entry e he
  exact ⟨f, hf, hdefined⟩

theorem call_mem_entryEvents {entry : Option EntryPoint} {node : Option NodeId}
    (h : Event.call node func ∈ entryEvents entry) : ∃ e, entry = some e ∧ e.func = func := by
  cases entry with
  | none => cases h
  | some e =>
    refine ⟨e, rfl, ?_⟩
    unfold entryEvents at h
    cases hkind : e.kind <;> simp_all

theorem exists_event (h : Outline c items labels A) {events : List Event} {ops : List Op}
    (hevents : List.Forall₂ (Event.Line labels) events (ops.filter Op.isEvent))
    (hp : p ∈ A.functions) (hcall : Op.jump .call p.routine.label ∈ ops) :
    ∃ node, Event.call node p.func ∈ events := by
  obtain ⟨event, hevent, hline⟩ := exists_of_mem_right hevents (mem_filter.mpr ⟨hcall, rfl⟩)
  cases hline with
  | @call node func _ hmem =>
    rw [h.func_eq hp hmem] at hevent
    exact ⟨node, hevent⟩

theorem isDefined (h : Outline c items labels A) (hengine : c.engine.Ok)
    (hok : ProgramOk c.engine c.analysis items) (hp : p ∈ A.functions) :
    c.analysis.IsDefined p.func := by
  have hentry {e : EntryPoint × Label} (he : e ∈ A.entry) : c.analysis.IsDefined e.1.func := by
    refine isDefined_entry hok (h.entry.symm.trans ?_)
    rw [mem_def.mp he]
    rfl
  have hroutine {q : PlacedRoutine} (hq : q ∈ A.functions) : q.routine ∈ A.routines :=
    mem_routines.mpr (.inr (.inr ⟨q, hq, rfl⟩))
  refine (h.reached (fun r => r ∈ A.routines ∧ ∀ q ∈ A.functions, q.routine.label = r.label →
    c.analysis.IsDefined q.func) ⟨loader_mem, fun q hq heq => ?_⟩
    (fun r r' hr' hP hcall => ⟨hr', fun q hq heq => ?_⟩) p.routine (hroutine hp)).2 p hp rfl
  · exact absurd heq (h.label_unique hq).1
  · rw [← heq] at hcall
    rcases mem_routines.mp hP.1 with rfl | hinit | ⟨caller, hcaller, rfl⟩
    · obtain ⟨-, ⟨g, hg, hlabel⟩ | ⟨e, he, hlabel⟩⟩ := jump_loader hcall
      · exact absurd hlabel ((h.label_unique hq).2.1 g hg)
      · have hmem := h.entryLabel e he
        rw [hlabel] at hmem
        exact h.func_eq hq hmem ▸ hentry he
    · obtain ⟨node, hevent⟩ := h.exists_event (h.init r hinit).events hq hcall
      rcases mem_append.mp hevent with hevent | hevent
      · exact (GenContext.callsMatch_globals hengine hok).isDefined hevent
      · obtain ⟨e, he, hfunc⟩ := call_mem_entryEvents hevent
        exact hfunc ▸ isDefined_entry hok he
    · obtain ⟨decl, body, info, hitem, hinfo, -, hevents⟩ := (h.functions caller hcaller).code
      have hbody := hok.body (hP.2 caller hcaller rfl) hinfo (h.functions caller hcaller).definition hitem
      obtain ⟨node, hevent⟩ := h.exists_event hevents hq hcall
      exact (GenContext.callsMatch_body hengine hbody).isDefined hevent

end Outline

/-! ## Lines -/

/-- The line of a call: a call of the routine of a function, or an action with the number of the
arguments. -/
inductive CallBecomes (a : Analysis) (labels : List (FuncId × Label)) : Expr → Op → Prop where
  | user {node name args func label} :
      a.calls.get? node.id = some (.user func) → (func, label) ∈ labels →
      CallBecomes a labels (.call node name args) (.jump .call label)
  | engine {node name args ordinal} :
      a.calls.get? node.id = some (.engine ordinal) →
      CallBecomes a labels (.call node name args) (.instr (.action ordinal args.length.toUInt8))

/-- The calls among lines are those of the expressions that are not inside a constant, one line for
each. -/
def CallsOnce (a : Analysis) (labels : List (FuncId × Label)) (es : List Expr) (ops : List Op) : Prop :=
  ∃ order, order.Perm (es.flatMap (Expr.liveCalls a)) ∧
    List.Forall₂ (CallBecomes a labels) order (ops.filter Op.isCall)

section Lines

variable {a : Analysis} {labels : List (FuncId × Label)} {events : List Event} {ops : List Op}

theorem Event.Line.isCall {event : Event} {op : Op} (h : event.Line labels op) :
    op.isCall = event.isCall := by
  cases h <;> rfl

theorem Op.isEvent_of_isCall {op : Op} (h : op.isCall = true) : op.isEvent = true := by
  unfold Op.isCall at h
  split at h
  · rfl
  · rfl
  · cases h

theorem filter_isCall (ops : List Op) :
    (ops.filter Op.isEvent).filter Op.isCall = ops.filter Op.isCall := by
  rw [List.filter_filter]
  refine filter_congr fun op _ => ?_
  cases hcall : op.isCall with
  | false => rfl
  | true => rw [Op.isEvent_of_isCall hcall, Bool.true_and]

theorem forall₂_filter_isCall (h : List.Forall₂ (Event.Line labels) events ops) :
    List.Forall₂ (Event.Line labels) (events.filter Event.isCall) (ops.filter Op.isCall) := by
  induction h with
  | nil => exact .nil
  | @cons event op _ _ hline _ ih =>
    cases hcall : event.isCall with
    | false => simpa [filter_cons, hline.isCall, hcall] using ih
    | true => simpa [filter_cons, hline.isCall, hcall] using ⟨hline, ih⟩

theorem exists_append_of_forall₂ {α β : Type} {R : α → β → Prop} {xs xs' : List α} {ys : List β}
    (h : List.Forall₂ R (xs ++ xs') ys) :
    ∃ before after, ys = before ++ after ∧ List.Forall₂ R xs before ∧ List.Forall₂ R xs' after := by
  induction xs generalizing ys with
  | nil => exact ⟨[], ys, rfl, .nil, h⟩
  | cons x xs ih =>
    cases h with
    | cons hx hrest =>
      obtain ⟨before, after, rfl, hbefore, hafter⟩ := ih hrest
      exact ⟨_ :: before, after, rfl, .cons hx hbefore, hafter⟩

theorem forall₂_callBecomes {order : List Expr} (h : List.Forall₂ (Event.OfCall a) order events)
    (h' : List.Forall₂ (Event.Line labels) events ops) :
    List.Forall₂ (CallBecomes a labels) order ops := by
  induction h generalizing ops with
  | nil =>
    cases h'
    exact .nil
  | cons hof _ ih =>
    cases h' with
    | cons hline hrest =>
      refine .cons ?_ (ih hrest)
      cases hof with
      | user huser _ =>
        cases hline with
        | call hmem => exact .user huser hmem
      | engine hengine =>
        cases hline
        exact .engine hengine

theorem CallsMatch.callsOnce {es : List Expr} (h : CallsMatch a events (es.flatMap (Expr.liveCalls a)))
    (hevents : List.Forall₂ (Event.Line labels) events (ops.filter Op.isEvent)) :
    CallsOnce a labels es ops := by
  obtain ⟨order, hperm, hcalls⟩ := h
  have hlines := forall₂_filter_isCall hevents
  rw [filter_isCall] at hlines
  exact ⟨order, hperm, forall₂_callBecomes hcalls hlines⟩

end Lines

/-- The calls of a unit. Those in the body of a function are lines of its routine, and those in the
initializers of global variables are lines of the routine for the global variables, in front of the
call of the entry function. -/
structure CallsKept (program : Program) (a : Analysis) (code : Code) (labels : List (FuncId × Label))
    (init : List Routine) (placed : List PlacedRoutine) : Prop where
  routines : ∃ loader, code.routines = loader :: init ++ placed.map PlacedRoutine.routine
  labelled : ∀ func label, (func, label) ∈ labels →
    ∃ p ∈ placed, p.func = func ∧ p.routine.label = label
  /-- Returns without storage for the result drop their values. -/
  functions : ∀ p ∈ placed, ∃ decl body info, a.definition? p.func = some p.index ∧
    program[p.index]? = some (.function decl body) ∧ a.functions[p.func]? = some info ∧
    p.routine.name = info.name ∧
    CallsOnce a labels (if a.keepsReturns info then Stmt.exprsOf body else Stmt.evaluatedOf false body)
      p.routine.ops
  /-- Without storage for global variables there is no routine for them. -/
  initNames : init.map Routine.name = if 0 < code.globalsSize then [globalsName] else []
  globals : ∀ g ∈ init, ∃ before,
    g.ops.filter Op.isCall = before ++ (code.entry.map (Op.jump .call)).toList ∧
    CallsOnce a labels (GenContext.globalInits program) before

namespace Outline

variable {c : GenContext} {items : Program} {labels : List (FuncId × Label)} {A : Assembly}

theorem callsOnce_function (h : Outline c items labels A) (hengine : c.engine.Ok)
    (hok : ProgramOk c.engine c.analysis items) (hp : p ∈ A.functions) :
    ∃ decl body info, c.analysis.definition? p.func = some p.index ∧
      items[p.index]? = some (.function decl body) ∧ c.analysis.functions[p.func]? = some info ∧
      p.routine.name = info.name ∧ CallsOnce c.analysis labels
        (if c.analysis.keepsReturns info then Stmt.exprsOf body else Stmt.evaluatedOf false body)
        p.routine.ops := by
  have hp' := h.functions p hp
  obtain ⟨decl, body, info, hitem, hinfo, hname, hevents⟩ := hp'.code
  have hbody := hok.body (h.isDefined hengine hok hp) hinfo hp'.definition hitem
  have hcalls := (GenContext.callsMatch_body hengine hbody).callsOnce hevents
  refine ⟨decl, body, info, hp'.definition, hitem, hinfo, hname, ?_⟩
  cases hkeeps : c.analysis.keepsReturns info with
  | true =>
    rw [hkeeps, Stmt.evaluatedOf_true] at hcalls
    exact hcalls
  | false =>
    rw [hkeeps] at hcalls
    exact hcalls

theorem filter_entryEvents (entry : Option EntryPoint) : (entryEvents entry).filter Event.isCall =
    (entry.map fun e => Event.call none e.func).toList := by
  cases entry with
  | none => rfl
  | some e =>
    unfold entryEvents
    dsimp only
    cases e.kind <;> rfl

theorem entryCall (h : Outline c items labels A) {ops : List Op}
    (hops : List.Forall₂ (Event.Line labels)
      (c.analysis.entry.map fun e => Event.call none e.func).toList ops) :
    ops = ((A.entry.map Prod.snd).map (Op.jump .call)).toList := by
  rw [← h.entry] at hops
  cases hentry : A.entry with
  | none =>
    rw [hentry] at hops
    cases hops
    rfl
  | some found =>
    rw [hentry] at hops
    cases hops with
    | cons hline hrest =>
      cases hrest
      cases hline with
      | call hmem =>
        have hlabel := h.entryLabel found hentry
        obtain rfl := congrArg Prod.snd (inj_on_of_nodup_map h.once hmem hlabel rfl)
        rfl

theorem callsOnce_globals (h : Outline c items labels A) (hengine : c.engine.Ok)
    (hok : ProgramOk c.engine c.analysis items) {g : Routine} (hg : g ∈ A.init) :
    ∃ before, g.ops.filter Op.isCall = before ++ ((A.entry.map Prod.snd).map (Op.jump .call)).toList ∧
      CallsOnce c.analysis labels (GenContext.globalInits items) before := by
  have hlines := forall₂_filter_isCall (h.init g hg).events
  rw [filter_isCall, GenContext.globalsEvents, filter_append, filter_entryEvents] at hlines
  obtain ⟨before, after, hops, hbefore, hafter⟩ := exists_append_of_forall₂ hlines
  have hcalls : ∀ op ∈ before, op.isCall = true := by
    intro op hop
    have hmem : op ∈ g.ops.filter Op.isCall := hops ▸ mem_append_left _ hop
    exact (mem_filter.mp hmem).2
  refine ⟨before, ?_, ?_⟩
  · rw [hops, h.entryCall hafter]
  · obtain ⟨order, hperm, hof⟩ := GenContext.callsMatch_globals hengine hok
    refine ⟨order, hperm, ?_⟩
    rw [filter_eq_self.mpr hcalls]
    exact forall₂_callBecomes hof hbefore

end Outline

namespace Accepted

/-- **Calls are kept.** Each call of a program without errors that is not inside a constant is one line
of the routine it belongs to, except in the values of returns of functions whose result takes up no
storage, and in the initializers of global variables if these take up none. -/
theorem calls_kept {engine : EngineTable} {program : Program} {code : Code}
    (h : Accepted engine program)
    (hcode : generate engine program (check engine program).analysis = .ok code) : ∃ labels init placed,
      CallsKept program (check engine program).analysis code labels init placed := by
  obtain ⟨labels, A, hA, rfl⟩ := outline_of_generate hcode
  have hok := h.programOk
  refine ⟨labels, A.init.toList, A.functions, ⟨A.loader, rfl⟩, fun func label => hA.exists_function,
    fun p hp => hA.callsOnce_function h.engineOk hok hp, ?_, fun g hg => ?_⟩
  · exact hA.initNames
  · exact hA.callsOnce_globals h.engineOk hok (mem_toList.mp hg)

theorem calls_kept_sample : ∃ code,
    generate Sample.engine Sample.program (check Sample.engine Sample.program).analysis = .ok code ∧
    ∃ labels init placed, CallsKept Sample.program (check Sample.engine Sample.program).analysis code
      labels init placed := by
  obtain ⟨code, hcode⟩ := Sample.generated
  exact ⟨code, hcode, calls_kept Sample.accepted hcode⟩

end Accepted

/-! ## A call that is dropped -/

def GenContext.functionEvents (c : GenContext) (items : Program) (func : FuncId) : List Event :=
  match (c.analysis.definition? func).bind (items[·]?), c.analysis.functions[func]? with
  | some (.function _ body), some info => c.stmtsEvents (c.slotSize info) body
  | _, _ => []

theorem Gen.PlacedRoutine.IsCode.events {c : GenContext} {items : Program}
    (h : p.IsCode c items labels) : List.Forall₂ (Event.Line labels) (c.functionEvents items p.func)
      (p.routine.ops.filter Op.isEvent) := by
  obtain ⟨decl, body, info, hitem, hinfo, -, hevents⟩ := h.code
  simpa [GenContext.functionEvents, h.definition, hitem, hinfo] using hevents

namespace Sample

/-- A function that returns a structure without fields calls itself. -/
def emptyText : String := "struct e\x7b\x7d;struct e f()\x7breturn f();\x7dvoid main()\x7bf();\x7d"

def emptyParsed : Parsed := parse engine.typeNames ((lex emptyText 0).filterMap Except.toOption)

def emptyProgram : Program := emptyParsed.program

def emptyAnalysis : Analysis := (check engine emptyProgram).analysis

def emptyContext : GenContext := ⟨emptyAnalysis, engine, .ofAnalysis emptyAnalysis⟩

theorem empty_stages : emptyParsed.errors.isEmpty = true ∧
    (check engine emptyProgram).findings.isEmpty = true ∧
    (generate engine emptyProgram emptyAnalysis).isOk = true ∧
    emptyAnalysis.entry.map EntryPoint.func = some 1 ∧
    emptyContext.functionEvents emptyProgram 1 = [.call (some 1) 0] ∧
    emptyContext.functionEvents emptyProgram 0 = [] ∧ emptyAnalysis.definition? 0 = some 1 ∧
    (emptyProgram[1]?.map fun item =>
      (item.exprs.flatMap (Expr.liveCalls emptyAnalysis)).length) = some 1 := by
  decide +kernel

theorem empty_accepted : Accepted engine emptyProgram where
  table := ⟨_, _, engine_ofSource⟩
  parsed := ⟨_, List.isEmpty_iff.mp empty_stages.1, rfl⟩
  checked := by simp [List.isEmpty_iff.mp empty_stages.2.1]

theorem empty_function {A : Assembly} (h : Outline emptyContext emptyProgram labels A) :
    ∃ p ∈ A.functions, p.func = 0 := by
  obtain ⟨-, -, -, hentry, hmain, -⟩ := empty_stages
  obtain ⟨e, he, hfunc⟩ := map_eq_some_iff.mp hentry
  obtain ⟨found, hfound, rfl⟩ := map_eq_some_iff.mp (h.entry.trans he)
  obtain ⟨main, hp, hpfunc, -⟩ := h.exists_function (h.entryLabel found hfound)
  have hevents := (h.functions main hp).events
  rw [hpfunc, hfunc, hmain] at hevents
  generalize main.routine.ops.filter Op.isEvent = ops at hevents
  cases hevents with
  | cons hline _ =>
    cases hline with
    | call hmem =>
      obtain ⟨p, hp, hpfunc, -⟩ := h.exists_function hmem
      exact ⟨p, hp, hpfunc⟩

theorem empty_routine {A : Assembly} (h : Outline emptyContext emptyProgram labels A) :
    ∃ r ∈ A.routines, (emptyContext.analysis.functions[0]?.map FuncInfo.name) = some r.name ∧
      r.ops.filter Op.isCall = [] := by
  obtain ⟨-, -, -, -, -, hf, -⟩ := empty_stages
  obtain ⟨p, hp, hfunc⟩ := empty_function h
  obtain ⟨decl, body, info, -, hinfo, hname, -⟩ := (h.functions p hp).code
  have hevents := (h.functions p hp).events
  rw [hfunc] at hinfo hevents
  rw [hf] at hevents
  refine ⟨p.routine, Outline.mem_routines.mpr (.inr (.inr ⟨p, hp, rfl⟩)), ?_, ?_⟩
  · rw [hinfo, map_some, hname]
  · rw [← filter_isCall]
    generalize p.routine.ops.filter Op.isEvent = ops at hevents
    cases hevents
    rfl

end Sample

/-- **A call is dropped**: the function has a routine, its body has a call that is not inside a constant,
and no line of the routine is a call. -/
theorem Accepted.call_dropped : ∃ program code, Accepted Sample.engine program ∧
    generate Sample.engine program (check Sample.engine program).analysis = .ok code ∧
    ∃ func index item, (check Sample.engine program).analysis.definition? func = some index ∧
      program[index]? = some item ∧
      item.exprs.flatMap (Expr.liveCalls (check Sample.engine program).analysis) ≠ [] ∧
      ∃ r ∈ code.routines, ((check Sample.engine program).analysis.functions[func]?.map FuncInfo.name) =
        some r.name ∧ r.ops.filter Op.isCall = [] := by
  obtain ⟨-, -, hok, -, -, -, hdefinition, hlive⟩ := Sample.empty_stages
  have hanalysis : Sample.emptyAnalysis = (check Sample.engine Sample.emptyProgram).analysis := by
    rw [Sample.emptyAnalysis]
  cases hcode : generate Sample.engine Sample.emptyProgram Sample.emptyAnalysis with
  | error fault =>
    rw [hcode] at hok
    cases hok
  | ok code =>
    obtain ⟨item, hitem, hlength⟩ := map_eq_some_iff.mp hlive
    obtain ⟨labels, A, hA, hunit⟩ := outline_of_generate hcode
    obtain ⟨r, hr, hname, hcalls⟩ := Sample.empty_routine hA
    have hr : r ∈ code.routines := by rwa [hunit]
    refine ⟨Sample.emptyProgram, code, Sample.empty_accepted, ?_⟩
    rw [← hanalysis]
    refine ⟨hcode, 0, 1, item, hdefinition, hitem, fun hnil => ?_, r, hr, hname, hcalls⟩
    rw [hnil] at hlength
    cases hlength

end Nwscript
