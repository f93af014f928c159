import Nwscript.Proofs.Code.Expr
import Nwscript.Proofs.Meaning.Basic

/-! # Values of expressions

An expression that the typing rules allow has a value of its type, and where the tables hold a
constant for it, the value is that constant. -/

open List Option

namespace Nwscript
namespace Meaning

/-! ## Executions step by step -/

section Apply

variable {α β : Type} (x : Eval α) (k : α → Eval β) (σ : Store)

theorem bind_apply : (x >>= k) σ = (x σ).bind fun r => k r.1 r.2 := rfl

theorem pure_apply (v : α) : (pure v : Eval α) σ = .done (v, σ) := rfl

end Apply

theorem Outcome.bind_eq_done {α β : Type} {o : Outcome α} {k : α → Outcome β} {b : β}
    (h : o.bind k = .done b) : ∃ v, o = .done v ∧ k v = .done b := by
  cases o with
  | done v => exact ⟨v, rfl, h⟩
  | fault reason => cases h
  | timeout => cases h

/-- What holds behind an execution that ends, if something holds before it. -/
def Ensures {α : Type} (P : Store → Prop) (x : Eval α) (Q : α → Store → Prop) : Prop :=
  ∀ σ, P σ → ∀ v σ', x σ = .done (v, σ') → Q v σ'

section Ensures

variable {α β : Type} {P : Store → Prop} {x : Eval α} {k : α → Eval β} {Q : α → Store → Prop}
  {R : β → Store → Prop}

theorem Ensures.bind (hx : Ensures P x Q) (hk : ∀ v, Ensures (Q v) (k v) R) :
    Ensures P (x >>= k) R := by
  intro σ hσ w σ' h
  rw [bind_apply] at h
  obtain ⟨⟨v, σ₁⟩, hv, hw⟩ := Outcome.bind_eq_done h
  exact hk v σ₁ (hx σ hσ v σ₁ hv) w σ' hw

theorem Ensures.pure {v : α} (h : ∀ σ, P σ → Q v σ) : Ensures P (Pure.pure v) Q := by
  rintro σ hσ v σ' ⟨⟩
  exact h σ hσ

theorem Ensures.fault {reason : FoldFault} : Ensures P (Eval.fault reason) Q := by
  rintro σ - v σ' ⟨⟩

/-- A fact that does not speak of the variables may be used in what follows. -/
theorem Ensures.of_and {p : Prop} (h : p → Ensures P x Q) : Ensures (fun σ => p ∧ P σ) x Q :=
  fun σ hσ => h hσ.1 σ hσ.2

end Ensures

/-! ## Variables -/

def LocalInts (a : Analysis) (visible : List VarId) : Prop :=
  ∀ var ∈ visible, ∃ info, a.vars[var]? = some info ∧ info.kind ≠ .global ∧ info.type = .int

def ConstsHold (a : Analysis) (visible : List VarId) (σ : Store) : Prop :=
  ∀ var ∈ visible, ∀ info n, a.vars[var]? = some info → info.value = some (.int n) → σ var = n

/-- A name stands for a visible variable or a global constant; a call calls a function of the program
that has an integer result or none, and that is one of some functions. -/
def PartSimple (a : Analysis) (callable : FuncId → Prop) (visible : List VarId) : Expr → Prop
  | .ident node _ => ∀ var, a.refs.get? node.id = some var → var ∈ visible ∨
      ∃ info, a.vars[var]? = some info ∧ info.kind = .global ∧ info.isConst = true
  | .call node _ _ => ∃ func info, a.calls.get? node.id = some (.user func) ∧
      a.functions[func]? = some info ∧ (info.ret = .int ∨ info.ret = .void) ∧ callable func
  | _ => True

def Simple (a : Analysis) (callable : FuncId → Prop) (visible : List VarId) (e : Expr) : Prop :=
  ∀ p ∈ e.parts, PartSimple a callable visible p

variable {e : Expr} {type : Ty} {v : Option Value}

theorem Simple.child {a : Analysis} {callable : FuncId → Prop} {visible : List VarId} {c : Expr}
    (h : Simple a callable visible e) (hc : c ∈ e.children) : Simple a callable visible c :=
  fun p hp => h p (Expr.mem_parts_iff.mpr (.inr ⟨c, hc, hp⟩))

theorem ConstsHold.set {a : Analysis} {visible : List VarId} {σ : Store}
    (h : ConstsHold a visible σ) {var : VarId} {n : Int32}
    (hvar : var ∈ visible → ∀ info, a.vars[var]? = some info → info.value = none) :
    ConstsHold a visible (σ.set var n) := by
  intro other hother info m hinfo hvalue
  unfold Store.set
  split
  · next heq =>
    subst heq
    rw [hvar hother info hinfo] at hvalue
    cases hvalue
  · exact h other hother info m hinfo hvalue

/-! ## Types -/

def HasType : Option Value → Ty → Prop
  | some v, type => v.type = type
  | none, type => type = .void

theorem HasType.exists_value (h : HasType v type) (htype : type ≠ .void) :
    ∃ w, v = some w ∧ w.type = type := by
  cases v with
  | none => exact absurd h htype
  | some w => exact ⟨w, rfl, h⟩

theorem HasType.exists_int (h : HasType v .int) : ∃ n, v = some (.int n) := by
  obtain ⟨w, rfl, hw⟩ := h.exists_value (by simp)
  cases w with
  | int n => exact ⟨n, rfl⟩
  | _ => cases hw

def CallTyped (a : Analysis) (calls : Calls) (func : FuncId) : Prop :=
  ∀ info, a.functions[func]? = some info → ∀ vs, vs.map Value.type = info.params.map FuncParam.type →
    ∀ v, calls func vs = .done v → HasType v info.ret

section Types

variable {engine : EngineTable} {a : Analysis} {calls : Calls} {callable : FuncId → Prop}
  {visible : List VarId}

variable {P : Store → Prop} {r : Except FoldFault Value} {x : Option Value} {op : BinOp}

theorem ensures_ofFold (h : ∀ v, r = .ok v → v.type = type) :
    Ensures P (Eval.ofFold r) fun v σ => HasType v type ∧ P σ := by
  cases r with
  | error reason => exact .fault
  | ok v => exact .pure fun σ hσ => ⟨h v rfl, hσ⟩

theorem FoldsTo.type_of_ok (h : FoldsTo r type) {v : Value} (hv : r = .ok v) : v.type = type := by
  rcases h with herror | ⟨w, hw, htype⟩
  · cases hv.symm.trans herror
  · cases hv.symm.trans hw
    exact htype

theorem ensures_binary {y : Option Value} {left right : Ty} (hx : HasType x left)
    (hy : HasType y right) (htype : binaryType? op left right = some type) :
    Ensures P (Eval.binary op x y) fun v σ => HasType v type ∧ P σ := by
  cases x with
  | none => exact .fault
  | some x =>
    cases y with
    | none => exact .fault
    | some y =>
      obtain rfl : x.type = left := hx
      obtain rfl : y.type = right := hy
      exact ensures_ofFold fun v hv => FoldsTo.type_of_ok (foldBinary_foldsTo htype) hv

theorem ensures_unary {op : UnOp} (hx : HasType x type) (happlies : unaryApplies op type = true) :
    Ensures P (Eval.unary op x) fun v σ => HasType v type ∧ P σ := by
  cases x with
  | none => exact .fault
  | some x =>
    obtain rfl : x.type = type := hx
    obtain ⟨w, hw, htype⟩ := foldUnary_foldsTo happlies
    refine ensures_ofFold fun v hv => ?_
    obtain rfl := Except.ok.inj (hv.symm.trans hw)
    exact htype

theorem ensures_store (hvars : a.VarsOk)
    {target : Expr} (hw : Writable a target.root) (v : Option Value) :
    Ensures (ConstsHold a visible) (Eval.store (targetVar? a target) v)
      fun _ σ => ConstsHold a visible σ := by
  cases target with
  | ident node name =>
    obtain ⟨var, info, href, hinfo, hconst⟩ := hw
    have htarget : targetVar? a (.ident node name) = some var := href
    rw [htarget]
    cases v with
    | none => exact .fault
    | some v =>
      cases v with
      | int n =>
        rintro σ hσ ⟨⟩ σ' ⟨⟩
        refine hσ.set fun _ info' hinfo' => ?_
        cases hinfo.symm.trans hinfo'
        have hvalue := (hvars var info hinfo).isConst
        rw [hconst] at hvalue
        exact isSome_eq_false_iff.mp hvalue.symm |> isNone_iff_eq_none.mp
      | _ => exact .fault
  | _ => exact .fault

theorem ensures_test : Ensures P (Eval.test v) fun _ => P := by
  cases v with
  | none => exact .fault
  | some v =>
    cases v with
    | int n => exact .pure fun _ hσ => hσ
    | _ => exact .fault

theorem ensures_defaultArgs {params : List FuncParam}
    (h : ∀ p ∈ params, ∀ v ∈ p.default, v.type = p.type) : Ensures P (defaultArgs params) fun vs σ =>
      vs.map Value.type = params.map FuncParam.type ∧ P σ := by
  induction params with
  | nil => exact .pure fun σ hσ => ⟨rfl, hσ⟩
  | cons p ps ih =>
    rw [defaultArgs]
    refine (ih fun q hq => h q (.tail _ hq)).bind fun later => .of_and fun hlater => ?_
    cases hp : p.default with
    | none => exact .fault
    | some v =>
      refine .pure fun σ hσ => ⟨?_, hσ⟩
      rw [map_cons, map_cons, hlater, h p (.head _) v hp]

theorem ensures_evalArgs {params : List FuncParam} {args : List Expr}
    (hdefaults : ∀ p ∈ params, ∀ v ∈ p.default, v.type = p.type)
    (haction : ∀ p ∈ params, p.type ≠ .action) (hargs : ArgsOk a args (params.map FuncParam.type))
    (hall : ∀ arg ∈ args, ∀ type, a.typeOf arg = some type →
      Ensures P (eval engine a calls arg) fun v σ => HasType v type ∧ P σ) :
    Ensures P (evalArgs engine a calls params args) fun vs σ =>
      vs.map Value.type = params.map FuncParam.type ∧ P σ := by
  induction args generalizing params with
  | nil =>
    rw [evalArgs]
    exact ensures_defaultArgs hdefaults
  | cons arg args ih =>
    cases params with
    | nil => exact hargs.elim
    | cons p ps =>
      obtain ⟨harg, hrest⟩ := hargs
      rw [ArgOk, if_neg (haction p (.head _))] at harg
      rw [evalArgs]
      refine (ih (fun q hq => hdefaults q (.tail _ hq))
        (fun q hq => haction q (.tail _ hq)) hrest
        fun e he => hall e (.tail _ he)).bind fun later => .of_and fun hlater => ?_
      refine (hall arg (.head _) p.type harg).bind fun v => .of_and fun hv => ?_
      cases v with
      | none => exact .fault
      | some v =>
        refine .pure fun σ hσ => ⟨?_, hσ⟩
        rw [map_cons, map_cons, hlater, show v.type = p.type from hv]

theorem shortcut?_eq_some {v : Value} (h : shortcut? op x = some v) :
    (op = .logAnd ∨ op = .logOr) ∧ v.type = .int := by
  unfold shortcut? at h
  split at h
  · split at h
    · cases h
      exact ⟨.inl rfl, rfl⟩
    · cases h
  · split at h
    · cases h
    · cases h
      exact ⟨.inr rfl, rfl⟩
  · cases h

theorem hasType_component {baseType : Ty} {name : String} {offset : Int} (hv : HasType v baseType)
    (hfield : a.structs.field? baseType name = some (offset, type)) :
    HasType (component? a name v) type := by
  cases v with
  | none =>
    obtain rfl : baseType = .void := hv
    cases hfield
  | some v =>
    obtain rfl : v.type = baseType := hv
    cases v with
    | vector x y z =>
      have hf : a.structs.field? .vector name = some (offset, type) := hfield
      obtain ⟨rfl, c, hc⟩ := StructTable.component_of_field? hf x y z
      rw [component?, hf, Option.bind_some, hc]
      rfl
    | _ => cases hfield

variable (hvars : a.VarsOk)
  (hsigs : ∀ (func : FuncId) f, a.functions[func]? = some f → SignatureOk a f)
  (hlocals : LocalInts a visible) (hcalls : ∀ func, callable func → CallTyped a calls func)

include hvars hlocals in
theorem ensures_ident {node : Node} {name : String} (hu : Usable engine a visible (.ident node name))
    (hs : Simple a callable visible (.ident node name))
    (htype : a.typeOf (.ident node name) = some type) :
    Ensures (ConstsHold a visible) (eval engine a calls (.ident node name))
      fun v σ => HasType v type ∧ ConstsHold a visible σ := by
  have hsimple := hs _ (Expr.self_mem_parts _)
  obtain ⟨value, hrule⟩ := hu.exists_rule htype
  rw [eval]
  cases hrule with
  | engineConstant hnone hconst =>
    rw [hnone, hconst]
    exact .pure fun σ hσ => ⟨rfl, hσ⟩
  | @«variable» _ _ var info href hinfo =>
    rw [href]
    rintro σ hσ v σ' h
    simp only [Eval.load, hinfo] at h
    obtain ⟨rfl, rfl⟩ := Prod.mk.inj (Outcome.done.inj h)
    refine ⟨?_, hσ⟩
    rcases hsimple var href with hvar | ⟨info', hinfo', hkind, hconst⟩
    · obtain ⟨info', hinfo', hkind, htype'⟩ := hlocals var hvar
      cases hinfo.symm.trans hinfo'
      rw [if_neg hkind, htype']
      rfl
    · cases hinfo.symm.trans hinfo'
      have hok := hvars var info hinfo
      have hsome := hok.isConst
      rw [hconst] at hsome
      obtain ⟨w, hw⟩ := isSome_iff_exists.mp hsome.symm
      rw [if_pos hkind, hw]
      exact hok.type w hw

include hvars hsigs hlocals hcalls in
/-- **An expression has a value of its type**, and leaves the constants as they are. -/
theorem ensures_eval (hu : Usable engine a visible e) (hs : Simple a callable visible e)
    (htype : a.typeOf e = some type) : Ensures (ConstsHold a visible) (eval engine a calls e)
      fun v σ => HasType v type ∧ ConstsHold a visible σ := by
  induction e using Expr.inductionOn generalizing type with obtain ⟨known, hrule⟩ := hu.exists_rule htype
  | literal node value =>
    cases hrule with
    | literal =>
      rw [eval]
      exact .pure fun σ hσ => ⟨rfl, hσ⟩
  | ident node name => exact ensures_ident hvars hlocals hu hs htype
  | binary node op lhs rhs ihl ihr =>
    cases hrule with
    | binary hleft hright hresult =>
      rw [eval]
      refine (ihl (hu.child (by simp)) (hs.child (by simp))
        hleft).bind fun x => .of_and fun hx => ?_
      cases hshort : shortcut? op x with
      | some v =>
        obtain ⟨hop, hv⟩ := shortcut?_eq_some hshort
        obtain ⟨-, -, rfl⟩ := Gen.binaryType?_logical hop hresult
        exact .pure fun σ hσ => ⟨hv, hσ⟩
      | none =>
        refine (ihr (hu.child (by simp)) (hs.child (by simp))
          hright).bind fun y => .of_and fun hy => ?_
        exact ensures_binary hx hy hresult
  | unary node op operand ih =>
    cases hrule with
    | unary hoperand happlies =>
      rw [eval]
      refine (ih (hu.child (by simp)) (hs.child (by simp))
        hoperand).bind fun x => .of_and fun hx => ?_
      exact ensures_unary hx happlies
  | step node s order target ih =>
    cases hrule with
    | step hident hwritable htarget =>
      have hroot : target.root = target := by
        cases target with
        | ident => rfl
        | _ => cases hident
      rw [eval]
      refine (ih (hu.child (by simp)) (hs.child (by simp))
        htarget).bind fun old => .of_and fun hold => ?_
      obtain ⟨n, rfl⟩ := hold.exists_int
      refine (ensures_store hvars (by rw [hroot]; exact hwritable) _).bind fun _ => ?_
      cases order with
      | stepFirst => exact .pure fun σ hσ => ⟨rfl, hσ⟩
      | valueFirst => exact .pure fun σ hσ => ⟨rfl, hσ⟩
  | call node name args ih =>
    obtain ⟨func, info, hcall, hinfo, -, hcallable⟩ := hs _ (Expr.self_mem_parts _)
    cases hrule with
    | engineCall hcall' _ _ =>
      cases hcall.symm.trans hcall'
    | userCall hcall' hinfo' _ _ hargs =>
      obtain rfl := Callee.user.inj (Option.some.inj (hcall.symm.trans hcall'))
      cases hinfo.symm.trans hinfo'
      have hsig := hsigs func info hinfo
      rw [eval, hcall]
      dsimp only
      rw [hinfo]
      refine (ensures_evalArgs hsig.defaults (fun p hp haction => ?_) hargs fun arg harg type ht =>
        ih arg harg (hu.child harg) (hs.child harg) ht).bind fun vs => .of_and fun hvs => ?_
      · have hstorable := (hsig.params p hp).isStorable
        rw [haction] at hstorable
        cases hstorable
      · intro σ hσ v σ' h
        obtain ⟨w, hw, hdone⟩ := Outcome.bind_eq_done h
        obtain ⟨rfl, rfl⟩ := Prod.mk.inj (Outcome.done.inj hdone)
        exact ⟨hcalls func hcallable info hinfo vs hvs w hw, hσ⟩
  | assign node op target value iht ihv =>
    have hvalue := hu.child (c := value) (by simp)
    have hsvalue := hs.child (c := value) (by simp)
    rw [eval.eq_def]
    cases hrule with
    | assign _ hwritable _ ht =>
      refine (ihv hvalue hsvalue ht).bind fun new => .of_and fun hnew => ?_
      exact (ensures_store hvars hwritable _).bind fun _ => .pure fun σ hσ => ⟨hnew, hσ⟩
    | compound _ hwritable htarget hright hresult =>
      refine (iht (hu.child (by simp)) (hs.child (by simp))
        htarget).bind fun old => .of_and fun hold => ?_
      refine (ihv hvalue hsvalue hright).bind fun right => .of_and fun hright => ?_
      refine (ensures_binary hold hright hresult).bind fun new => .of_and fun hnew => ?_
      exact (ensures_store hvars hwritable _).bind fun _ => .pure fun σ hσ => ⟨hnew, hσ⟩
  | field node base name ih =>
    cases hrule with
    | field hbase hfield =>
      rw [eval]
      refine (ih (hu.child (by simp)) (hs.child (by simp))
        hbase).bind fun v => .of_and fun hv => ?_
      exact .pure fun σ hσ => ⟨hasType_component hv hfield, hσ⟩
  | conditional node cond yes no ihc ihy ihn =>
    cases hrule with
    | conditional hcond hyes hno =>
      rw [eval]
      refine (ihc (hu.child (by simp)) (hs.child (by simp))
        hcond).bind fun v => .of_and fun _ => ?_
      refine ensures_test.bind fun b => ?_
      cases b with
      | true => exact ihy (hu.child (by simp)) (hs.child (by simp)) hyes
      | false => exact ihn (hu.child (by simp)) (hs.child (by simp)) hno

/-! ## Constants -/

/-- A left operand that decides does so whatever the right operand is. -/
theorem foldBinary_of_shortcut {x y v w : Value} (h : shortcut? op (some x) = some w)
    (hv : foldBinary op x y = .ok v) : w = v := by
  obtain ⟨hop, -⟩ := shortcut?_eq_some h
  cases x with
  | int n =>
    cases y with
    | int m =>
      rcases hop with rfl | rfl
      · simp only [shortcut?] at h
        split at h
        · next hn => simp_all [foldBinary, foldInt, Value.truth]
        · cases h
      · simp only [shortcut?] at h
        split at h
        · cases h
        · next hn => simp_all [foldBinary, foldInt, Value.truth]
    | _ => rcases hop with rfl | rfl <;> cases hv
  | _ => rcases hop with rfl | rfl <;> cases h

theorem rule_of_valueOf (h : Usable engine a visible e) {v : Value} (hv : a.valueOf e = some v) :
    ∃ type known, known = some v ∧ TypeRule engine a e type known := by
  obtain ⟨type, htype⟩ := h.typeOf_isSome
  exact ⟨type, _, hv, h.rule htype⟩

include hvars hlocals in
/-- **The constant that the tables hold for an expression is its value.** -/
theorem eval_of_valueOf (hu : Usable engine a visible e) (hs : Simple a callable visible e)
    {v : Value} (hv : a.valueOf e = some v) {σ : Store} (hσ : ConstsHold a visible σ) :
    eval engine a calls e σ = .done (some v, σ) := by
  induction e using Expr.inductionOn generalizing v with
    obtain ⟨type, known, hknown, hrule⟩ := rule_of_valueOf hu hv
  | literal node value =>
    cases hrule with
    | literal =>
      rw [eval, Option.some.inj hknown]
      rfl
  | ident node name =>
    have hsimple := hs _ (Expr.self_mem_parts _)
    rw [eval]
    cases hrule with
    | engineConstant hnone hconst =>
      rw [hnone, hconst, hknown]
      rfl
    | @«variable» _ _ var info href hinfo =>
      rw [href]
      simp only [Eval.load, hinfo]
      rcases hsimple var href with hvar | ⟨info', hinfo', hkind, -⟩
      · obtain ⟨info', hinfo', hkind, hint⟩ := hlocals var hvar
        cases hinfo.symm.trans hinfo'
        have htype := (hvars var info hinfo).type v hknown
        rw [hint] at htype
        cases v with
        | int n => rw [if_neg hkind, hσ var hvar info n hinfo hknown]
        | _ => cases htype
      · cases hinfo.symm.trans hinfo'
        rw [if_pos hkind, hknown]
  | binary node op lhs rhs ihl ihr =>
    cases hrule with
    | binary _ _ _ =>
      obtain ⟨x, hx, hknown⟩ := bind_eq_some_iff.mp hknown
      obtain ⟨y, hy, hknown⟩ := bind_eq_some_iff.mp hknown
      have hfold := toOption_eq_some hknown
      have hl := ihl (hu.child (by simp)) (hs.child (by simp)) hx
      have hr := ihr (hu.child (by simp)) (hs.child (by simp)) hy
      rw [eval, bind_apply, hl]
      show Eval.unlessDecided _ (shortcut? op (some x)) σ = _
      cases hshort : shortcut? op (some x) with
      | some w =>
        rw [foldBinary_of_shortcut hshort hfold]
        rfl
      | none =>
        rw [Eval.unlessDecided, bind_apply, hr]
        show Eval.ofFold (foldBinary op x y) σ = _
        rw [hfold]
        rfl
  | unary node op operand ih =>
    cases hrule with
    | unary _ _ =>
      obtain ⟨x, hx, hknown⟩ := bind_eq_some_iff.mp hknown
      rw [eval, bind_apply,
        ih (hu.child (by simp)) (hs.child (by simp)) hx]
      show Eval.ofFold (foldUnary op x) σ = _
      rw [toOption_eq_some hknown]
      rfl
  | step node s order target ih =>
    cases hrule
    cases hknown
  | call node name args ih =>
    cases hrule <;> cases hknown
  | assign node op target value iht ihv =>
    cases hrule <;> cases hknown
  | field node base name ih =>
    cases hrule with
    | @field _ _ _ baseType _ offset hbase hfield =>
      cases hvalue : a.valueOf base with
      | none =>
        rw [hvalue] at hknown
        cases hknown
      | some x =>
        have hchild := hu.child (c := base) (by simp)
        have htyped := hasTypedValue hchild.ok hvars x baseType hvalue hbase
        rw [eval, bind_apply, ih hchild (hs.child (by simp)) hvalue]
        rw [hvalue] at hknown
        cases x with
        | vector x y z =>
          have hf : a.structs.field? .vector name = some (offset, type) := by
            rw [← hfield, ← htyped]
            rfl
          show Outcome.done (component? a name (some (.vector x y z)), σ) = _
          rw [component?, hf, ← hknown]
          rfl
        | _ => cases hknown
  | conditional node cond yes no ihc ihy ihn =>
    cases hrule with
    | conditional _ _ _ =>
      cases hvalue : a.valueOf cond with
      | none =>
        rw [hvalue] at hknown
        cases hknown
      | some x =>
        rw [eval, bind_apply,
          ihc (hu.child (by simp)) (hs.child (by simp)) hvalue]
        rw [hvalue] at hknown
        cases x with
        | int n =>
          show (if (n != 0) = true then eval engine a calls yes else eval engine a calls no) σ = _
          simp only [foldedChoice] at hknown
          split at hknown
          · next hn =>
            rw [if_pos hn]
            exact ihy (hu.child (by simp)) (hs.child (by simp)) hknown
          · next hn =>
            rw [if_neg hn]
            exact ihn (hu.child (by simp)) (hs.child (by simp)) hknown
        | _ => cases hknown

end Types

end Meaning
end Nwscript
