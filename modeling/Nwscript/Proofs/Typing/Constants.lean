import Nwscript.Proofs.Blind.Check

/-! # Two evaluators of constants

The check records values bottom-up, with a table of operand types and a look at every divisor; an
expression outside of any scope is evaluated top-down. Where the names stand for the same constants
and nothing is wrong with an expression, both find the same value. -/

namespace Nwscript

variable {e : Expr} {s : CheckState} {node : Node} {type : Ty}

/-! ## Divisors -/

theorem Single.magnitude_ofMagnitude (negative : Bool) {m : Nat} (h : m < 0x80000000) :
    (ofMagnitude negative m).magnitude = m := by
  unfold magnitude ofMagnitude
  cases negative <;> simp only [Bool.false_eq_true, if_false, if_true, UInt32.toNat_ofNat'] <;> omega

theorem Single.isZero_ofInt {n : Int} (h : (ofInt n).isZero = true) : n = 0 := by
  by_contra hn
  have hnum : n.natAbs ≠ 0 := Int.natAbs_ne_zero.mpr hn
  have hlog : 0 ≤ ratioLog n.natAbs 1 := by
    have hle : 2 ^ n.natAbs.log2 ≤ n.natAbs := Nat.log2_self_le hnum
    simp only [ratioLog, Nat.pow_eq, show Nat.log2 1 = 0 from rfl, pow_zero, Nat.mul_one, Nat.one_mul]
    rw [if_neg (by omega)]
    omega
  rw [ofInt, roundRatio, if_neg hnum, isZero, beq_iff_eq, magnitude_ofMagnitude] at h
  · simp only [infiniteMagnitude] at h
    omega
  · simp only [infiniteMagnitude]
    omega

theorem foldBinary_divisionByZero {op : BinOp} {x y : Value}
    (h : foldBinary op x y = .error .divisionByZero) : op.divides = true ∧ y.isZero = true := by
  have harith {a b : Single} {otherwise : Except FoldFault Value}
      (hother : otherwise ≠ .error .divisionByZero)
      (h : foldArith op a b otherwise = .error .divisionByZero) :
      op.divides = true ∧ b.isZero = true := by
    cases op <;> simp_all [foldArith, BinOp.divides]
  have hequality {equal : Bool} (h : foldEquality op equal = .error .divisionByZero) : False := by
    cases op <;> simp [foldEquality] at h
  cases x with
  | int a =>
    cases y with
    | int b => cases op <;> simp_all [foldBinary, foldInt, BinOp.divides, Value.isZero]
    | float b => exact harith (by simp) h
    | _ => simp [foldBinary] at h
  | float a =>
    cases y with
    | int b =>
      obtain ⟨hop, hzero⟩ := harith (by simp) h
      have hb : b.toInt = 0 := Single.isZero_ofInt hzero
      exact ⟨hop, by simpa [Value.isZero] using Int32.toInt_inj.mp hb⟩
    | float b =>
      refine harith ?_ h
      cases op <;> simp [foldFloatComparison]
    | vector a b c =>
      simp only [foldBinary] at h
      split at h <;> cases h
    | _ => simp [foldBinary] at h
  | string a =>
    cases y with
    | string b =>
      simp only [foldBinary] at h
      split at h
      · cases h
      · exact (hequality h).elim
    | _ => simp [foldBinary] at h
  | object a =>
    cases y with
    | object b => exact (hequality h).elim
    | _ => simp [foldBinary] at h
  | vector a b c =>
    cases y with
    | float k =>
      simp only [foldBinary] at h
      repeat' split at h
      all_goals simp_all [BinOp.divides, Value.isZero]
    | vector x y z =>
      simp only [foldBinary] at h
      repeat' split at h
      all_goals first | cases h | exact (hequality h).elim
    | _ => simp [foldBinary] at h

/-! ## Expressions -/

def Expr.FieldFree (e : Expr) : Prop := ∀ node base name, .field node base name ∉ e.parts

theorem Expr.FieldFree.child {c : Expr} (h : e.FieldFree) (hc : c ∈ e.children) : c.FieldFree :=
  fun node base name hmem => h node base name (mem_parts_iff.mpr (.inr ⟨c, hc, hmem⟩))

namespace Check

open CheckState

/-- The names stand for the constants of an environment: a variable has the value that its name has
there, and a name without a variable is one of the engine's. -/
structure Knows (engine : EngineTable) (s : CheckState) (env : String → Option Value) : Prop where
  declared : ∀ name var, s.resolve name = some var → ∃ info, s.analysis.vars[var]? = some info ∧
    info.value = env name ∧ ∀ v, env name = some v → v.type = info.type
  undeclared : ∀ name, s.resolve name = none → engine.constant? name = env name

def Agree (env : String → Option Value) (a : Analysis) (e : Expr) : Prop :=
  (evalConst env e = .error .notConst ∧ (e.FieldFree → a.valueOf e = none)) ∨
    ∃ v, evalConst env e = .ok v ∧ a.valueOf e = some v ∧ a.typeOf e = some v.type

theorem evalConst_binary (env : String → Option Value) (node : Node) (op : BinOp) (lhs rhs : Expr) :
    evalConst env (.binary node op lhs rhs) = (evalConst env lhs).bind fun x =>
      (evalConst env rhs).bind fun y => EvalFault.lift (foldBinary op x y) := rfl

theorem evalConst_unary (env : String → Option Value) (node : Node) (op : UnOp) (operand : Expr) :
    evalConst env (.unary node op operand) = (evalConst env operand).bind fun x =>
      EvalFault.lift (foldUnary op x) := rfl

section Agreement

variable {engine : EngineTable} {env : String → Option Value} {a : Analysis}

theorem agree_ident {name : String} {value : Option Value} (hknows : Knows engine s env)
    (hvars : ∀ (var : VarId) info, s.analysis.vars[var]? = some info → a.vars[var]? = some info)
    (hrule : TypeRule engine a (.ident node name) type value)
    (href : a.refs.get? node.id = s.resolve name) (htype : a.typeOf (.ident node name) = some type)
    (hvalue : a.valueOf (.ident node name) = value) : Agree env a (.ident node name) := by
  have henv : value = env name ∧ ∀ v, env name = some v → v.type = type := by
    cases hrule with
    | «variable» hvar hinfo =>
      obtain ⟨info', hinfo', hv, ht⟩ := hknows.declared name _ (href.symm.trans hvar)
      cases hinfo.symm.trans (hvars _ _ hinfo')
      exact ⟨hv, ht⟩
    | engineConstant hnone hconst =>
      have hv := hknows.undeclared name (href.symm.trans hnone)
      refine ⟨hconst.symm.trans hv, fun v h => ?_⟩
      rw [Option.some.inj ((hconst.symm.trans hv).trans h)]
  obtain ⟨rfl, ht⟩ := henv
  cases hname : env name with
  | none => exact .inl ⟨by simp [evalConst, hname], fun _ => hvalue.trans hname⟩
  | some v => exact .inr ⟨v, by simp [evalConst, hname], hvalue.trans hname, ht v hname ▸ htype⟩

theorem agree_binary {op : BinOp} {lhs rhs : Expr} {left right : Ty}
    (hl : Agree env a lhs) (hr : Agree env a rhs) (hleft : a.typeOf lhs = some left)
    (hright : a.typeOf rhs = some right) (hop : binaryType? op left right = some type)
    (hdivides : DividesOk a op rhs) (htype : a.typeOf (.binary node op lhs rhs) = some type)
    (hvalue : a.valueOf (.binary node op lhs rhs) = foldedBinary op (a.valueOf lhs) (a.valueOf rhs)) :
    Agree env a (.binary node op lhs rhs) := by
  rw [Agree, evalConst_binary, hvalue]
  rcases hl with ⟨hx, hnone⟩ | ⟨x, hx, hxv, hxt⟩
  · refine .inl ⟨by rw [hx]; rfl, fun hfree => ?_⟩
    rw [hnone (hfree.child (by simp))]
    rfl
  · cases hleft.symm.trans hxt
    rcases hr with ⟨hy, hnone⟩ | ⟨y, hy, hyv, hyt⟩
    · refine .inl ⟨by rw [hx, hy]; rfl, fun hfree => ?_⟩
      rw [hnone (hfree.child (by simp)), hxv]
      rfl
    · cases hright.symm.trans hyt
      rcases foldBinary_foldsTo hop with hzero | ⟨v, hv, hvt⟩
      · obtain ⟨hdiv, hy0⟩ := foldBinary_divisionByZero hzero
        exact absurd (hdivides hdiv y hyv) (by simp [hy0])
      · refine .inr ⟨v, by rw [hx, hy, Except.bind, Except.bind, hv]; rfl, ?_, hvt ▸ htype⟩
        simp [foldedBinary, hxv, hyv, hv, Except.toOption]

theorem agree_unary {op : UnOp} {operand : Expr} (ho : Agree env a operand)
    (hot : a.typeOf operand = some type) (hop : unaryApplies op type = true)
    (htype : a.typeOf (.unary node op operand) = some type)
    (hvalue : a.valueOf (.unary node op operand) = foldedUnary op (a.valueOf operand)) :
    Agree env a (.unary node op operand) := by
  rw [Agree, evalConst_unary, hvalue]
  rcases ho with ⟨hx, hnone⟩ | ⟨x, hx, hxv, hxt⟩
  · refine .inl ⟨by rw [hx]; rfl, fun hfree => ?_⟩
    rw [hnone (hfree.child (by simp))]
    rfl
  · cases hot.symm.trans hxt
    obtain ⟨v, hv, hvt⟩ := foldUnary_foldsTo hop
    refine .inr ⟨v, by rw [hx, Except.bind, hv]; rfl, ?_, hvt ▸ htype⟩
    simp [foldedUnary, hxv, hv, Except.toOption]

theorem agree_conditional {cond yes no : Expr} (hc : Agree env a cond)
    (hy : Agree env a yes) (hn : Agree env a no) (hct : a.typeOf cond = some .int)
    (hvalue : a.valueOf (.conditional node cond yes no) =
      foldedChoice (a.valueOf cond) (a.valueOf yes) (a.valueOf no))
    (htype : a.typeOf (.conditional node cond yes no) = some type)
    (hyt : a.typeOf yes = some type) (hnt : a.typeOf no = some type) :
    Agree env a (.conditional node cond yes no) := by
  rcases hc with ⟨hx, hnone⟩ | ⟨x, hx, hxv, hxt⟩
  · refine .inl ⟨by rw [evalConst, hx]; rfl, fun hfree => ?_⟩
    rw [hvalue, hnone (hfree.child (by simp))]
    rfl
  · obtain ⟨n, rfl⟩ : ∃ n, x = .int n := by
      cases x with
      | int n => exact ⟨n, rfl⟩
      | _ => simp [hct, Value.type] at hxt
    -- both evaluators go on with the same branch
    have hbranch {branch : Expr} (hb : Agree env a branch) (hmem : branch ∈ [cond, yes, no])
        (heval : evalConst env (.conditional node cond yes no) = evalConst env branch)
        (hchoice : a.valueOf (.conditional node cond yes no) = a.valueOf branch)
        (hbt : a.typeOf branch = some type) : Agree env a (.conditional node cond yes no) := by
      rw [Agree, heval, hchoice]
      refine hb.imp (fun h => ⟨h.1, fun hfree => h.2 (hfree.child hmem)⟩) ?_
      rintro ⟨v, hv, hvv, hvt⟩
      exact ⟨v, hv, hvv, htype.trans (hbt.symm.trans hvt)⟩
    rw [hxv] at hvalue
    by_cases hzero : n = 0
    · refine hbranch hn (by simp) ?_ (by simpa [foldedChoice, hzero] using hvalue) hnt
      rw [evalConst, hx]
      exact if_pos hzero
    · refine hbranch hy (by simp) ?_ (by simpa [foldedChoice, hzero] using hvalue) hyt
      rw [evalConst, hx]
      exact if_neg hzero

/-- **The evaluators agree** about every expression that was checked. -/
theorem agree (hknows : Knows engine s env)
    (hvars : ∀ (var : VarId) info, s.analysis.vars[var]? = some info → a.vars[var]? = some info)
    (hok : ExprOk engine a e) (hread : ExprRead s a e) : Agree env a e := by
  induction e using Expr.childInduction with
  | h e ih =>
    obtain ⟨hnode, hreads⟩ := exprRead_iff.mp hread
    obtain ⟨type, value, hrule, htype, hvalue⟩ := hok e e.self_mem_parts
    have ih (c : Expr) (hc : c ∈ e.children) : Agree env a c :=
      ih c hc (fun p hp => hok p (Expr.mem_parts_iff.mpr (.inr ⟨c, hc, hp⟩))) (hreads c hc)
    cases hrule with
    | literal node v => exact .inr ⟨v, rfl, hvalue, htype⟩
    | «variable» hvar hinfo => exact agree_ident hknows hvars (.variable hvar hinfo) hnode htype hvalue
    | engineConstant hnone hconst =>
      exact agree_ident hknows hvars (.engineConstant hnone hconst) hnode htype hvalue
    | binary hleft hright hop =>
      exact agree_binary (ih _ (by simp)) (ih _ (by simp)) hleft hright
        hop hnode htype hvalue
    | unary hot hop => exact agree_unary (ih _ (by simp)) hot hop htype hvalue
    | field hbase hfield =>
      exact .inl ⟨rfl, fun hfree => absurd (Expr.self_mem_parts _) (hfree _ _ _)⟩
    | conditional hct hyt hnt =>
      exact agree_conditional (ih _ (by simp)) (ih _ (by simp))
        (ih _ (by simp)) hct hvalue htype hyt hnt
    | _ => exact .inl ⟨rfl, fun _ => hvalue⟩

/-! ## Checks at global scope -/

/-- Only global variables are in scope. The names of the environment are those of the constants among
them, with their values, and those of the engine's constants that no variable hides. -/
structure AtTopLevel (engine : EngineTable) (s : CheckState) (env : String → Option Value) : Prop where
  inv : s.Inv
  locals : ∀ name, s.scopes.lookup? name = none
  globals : ∀ name var, s.globals.lookup name = some var → ∃ info, s.analysis.vars[var]? = some info ∧
    info.isConst = (env name).isSome ∧ info.value = env name ∧
    ∀ v, env name = some v → info.type = v.type
  engine : ∀ name, s.globals.lookup name = none → engine.constant? name = env name

theorem AtTopLevel.knows (h : AtTopLevel engine s env) : Knows engine s env where
  declared name var hvar := by
    rw [resolve, h.locals, Option.none_or] at hvar
    obtain ⟨info, hinfo, -, hvalue, htype⟩ := h.globals name var hvar
    exact ⟨info, hinfo, hvalue, fun v hv => (htype v hv).symm⟩
  undeclared name hname := by
    rw [resolve, h.locals, Option.none_or] at hname
    exact h.engine name hname

theorem agree_of_noErrors (hinv : s.Inv) (hfresh : s.Fresh e.ids)
    (hnodup : e.ids.Nodup) (hknows : Knows engine s env) (herrors : (checkExpr engine e s).2.NoErrors) :
    Agree env (checkExpr engine e s).2.analysis e := by
  obtain ⟨⟨hstays, type, -, husable⟩, hread⟩ :=
    (checksExpr_read engine e s hinv hfresh hnodup).sound _ herrors (.refl _ _)
  exact agree hknows (fun var info h => hstays.vars ▸ h) husable.ok hread

/-- **The two evaluators agree** about an expression without fields, whatever was found before: if
the check reports no error in it, it records the value that the evaluator finds, and none if there is
none, and the type of the value. Where the evaluator divides by zero or meets wrong operands, the
check reports an error. -/
theorem evaluators_agree {s : CheckState} {e : Expr} (htop : AtTopLevel engine s env)
    (hfresh : s.Fresh e.ids) (hnodup : e.ids.Nodup) (hfree : e.FieldFree) :
    ∃ found, (checkExpr engine e s).2.findings = found ++ s.findings ∧
      ((∀ f ∈ found, f.problem.severity ≠ .error) →
        (∀ v, (checkExpr engine e s).2.analysis.valueOf e = some v ↔ evalConst env e = .ok v) ∧
        ∀ v, evalConst env e = .ok v → (checkExpr engine e s).2.analysis.typeOf e = some v.type) ∧
      (evalConst env e = .error .divisionByZero ∨ evalConst env e = .error .typeError →
        ∃ f ∈ found, f.problem.severity = .error) := by
  -- the same check with nothing found before it
  let s₀ : CheckState := { s with findings := [] }
  have hframed := (@blind_checkExpr id id engine e).framed s₀ s.findings
  have hs : s₀.after s.findings = s := rfl
  rw [hs] at hframed
  have hagree (h : ∀ f ∈ (checkExpr engine e s₀).2.findings, f.problem.severity ≠ .error) :
      Agree env (checkExpr engine e s).2.analysis e := by
    rw [hframed]
    exact agree_of_noErrors ⟨htop.inv.visible, htop.inv.globals, htop.inv.known⟩ hfresh hnodup
      ⟨htop.knows.declared, htop.knows.undeclared⟩ h
  refine ⟨(checkExpr engine e s₀).2.findings, by rw [hframed]; rfl, fun h => ?_, fun hfault => ?_⟩
  · rcases hagree h with ⟨heval, hnone⟩ | ⟨v, heval, hvalue, htype⟩
    · rw [heval, hnone hfree]
      simp
    · rw [heval, hvalue]
      refine ⟨fun w => by simp, fun w hw => ?_⟩
      rw [htype, Except.ok.inj hw]
  · by_contra hnone
    push Not at hnone
    rcases hagree hnone with ⟨heval, -⟩ | ⟨v, heval, -⟩ <;> simp [heval] at hfault

end Agreement

namespace QuotientSample

def engine : EngineTable := { version := "1", checksum := 0 }

def state : CheckState where
  analysis := { vars := #[⟨"a", .int, .global, true, some (.int 3), {}⟩], globals := [0] }
  globals := [("a", 0)]

def env (name : String) : Option Value := if name = "a" then some (.int 3) else none

def expr : Expr := .binary ⟨2, {}⟩ .div (.literal ⟨0, {}⟩ (.int 7)) (.ident ⟨1, {}⟩ "a")

theorem atTopLevel : AtTopLevel engine state env where
  inv := ⟨by simp [CheckState.visible, state], by simp [state], by simp [state]⟩
  locals _ := rfl
  globals name var h := by
    by_cases hname : name = "a"
    · subst hname
      obtain rfl : var = 0 := by simpa [state] using h.symm
      exact ⟨_, rfl, rfl, rfl, fun v hv => by cases hv; rfl⟩
    · simp [state, List.lookup, beq_eq_false_iff_ne.mpr hname] at h
  engine name h := by
    by_cases hname : name = "a"
    · subst hname
      cases h
    · exact (if_neg hname).symm

end QuotientSample

/-- Both evaluators find that the quotient is 2. -/
theorem evaluators_agree_quotient : evalConst QuotientSample.env QuotientSample.expr = .ok (.int 2) ∧
    (checkExpr QuotientSample.engine QuotientSample.expr QuotientSample.state).2.analysis.valueOf
      QuotientSample.expr = some (.int 2) ∧
    (checkExpr QuotientSample.engine QuotientSample.expr QuotientSample.state).2.analysis.typeOf
      QuotientSample.expr = some .int := by
  have heval : evalConst QuotientSample.env QuotientSample.expr = .ok (.int 2) := by decide
  have hclean : (checkExpr QuotientSample.engine QuotientSample.expr QuotientSample.state).2.findings =
    [] := by decide +kernel
  obtain ⟨found, hfound, hsame, -⟩ := evaluators_agree QuotientSample.atTopLevel
    (e := QuotientSample.expr) (fun id _ => rfl) (by decide)
    (by simp [Expr.FieldFree, QuotientSample.expr, Expr.parts])
  obtain ⟨rfl, -⟩ := List.append_eq_nil_iff.mp (hfound.symm.trans hclean)
  obtain ⟨hvalue, htype⟩ := hsame (by simp)
  exact ⟨heval, (hvalue _).mpr heval, htype _ heval⟩

end Check
end Nwscript
