import Nwscript.Proofs.Machine.Expr

/-! # Integer expressions

An expression of integer literals, named constants and variables, with operators, assignments, steps
and choices. Its evaluation ends with an integer unless it divides by zero, and the code that is
generated for it runs to its end exactly then. -/

namespace Nwscript
namespace Machine

open Gen Meaning

/-- A name of an integer variable that is visible, or of an integer constant. -/
def IntName (engine : EngineTable) (a : Analysis) (visible : List VarId) (id : NodeId) (name : String) :
    Prop :=
  (∃ var ∈ visible, a.refs.get? id = some var) ∨
  (∃ var info n, a.refs.get? id = some var ∧ a.vars[var]? = some info ∧ info.kind = .global ∧
    info.value = some (.int n)) ∨
  ∃ n, a.refs.get? id = none ∧ engine.constant? name = some (.int n)

def IntPart (engine : EngineTable) (a : Analysis) (visible : List VarId) : Expr → Prop
  | .literal _ value => value.type = .int
  | .ident node name => IntName engine a visible node.id name
  | .call _ _ _ | .field _ _ _ => False
  | _ => True

def IntExpr (engine : EngineTable) (a : Analysis) (visible : List VarId) (e : Expr) : Prop :=
  ∀ p ∈ e.parts, IntPart engine a visible p

/-! ## Evaluation -/

def GivesInt (P : Store → Prop) (x : Eval (Option Value)) : Prop :=
  ∀ σ, P σ → x σ = .fault .divisionByZero ∨ ∃ n σ', x σ = .done (some (.int n), σ') ∧ P σ'

section GivesInt

variable {P : Store → Prop} {x : Eval (Option Value)} {k : Option Value → Eval (Option Value)}

theorem GivesInt.bind (hx : GivesInt P x) (hk : ∀ n, GivesInt P (k (some (.int n)))) :
    GivesInt P (x >>= k) := by
  intro σ hσ
  rw [bind_apply]
  rcases hx σ hσ with hfault | ⟨n, σ', hdone, hσ'⟩
  · rw [hfault]
    exact .inl rfl
  · rw [hdone]
    exact hk n σ' hσ'

theorem givesInt_pure (n : Int32) : GivesInt P (pure (some (.int n))) :=
  fun σ hσ => .inr ⟨n, σ, rfl, hσ⟩

theorem foldInt_cases (op : BinOp) (m n : Int32) :
    foldInt op m n = .error .divisionByZero ∨ ∃ r, foldInt op m n = .ok (.int r) := by
  have htruth : ∀ b, ∃ r, Value.truth b = .int r := fun b => ⟨_, rfl⟩
  cases op with
  | div =>
    simp only [foldInt]
    split
    · exact .inl rfl
    · exact .inr ⟨_, rfl⟩
  | mod =>
    simp only [foldInt]
    split
    · exact .inl rfl
    · exact .inr ⟨_, rfl⟩
  | _ => exact .inr ⟨_, rfl⟩

theorem givesInt_binary (op : BinOp) (m n : Int32) :
    GivesInt P (Eval.binary op (some (.int m)) (some (.int n))) := by
  intro σ hσ
  have heval : Eval.binary op (some (.int m)) (some (.int n)) = Eval.ofFold (foldInt op m n) := rfl
  rcases foldInt_cases op m n with hfold | ⟨r, hfold⟩
  · rw [heval, hfold]
    exact .inl rfl
  · rw [heval, hfold]
    exact .inr ⟨r, σ, rfl, hσ⟩

theorem givesInt_unary (op : UnOp) (n : Int32) : GivesInt P (Eval.unary op (some (.int n))) := by
  intro σ hσ
  cases op with
  | neg => exact .inr ⟨_, σ, rfl, hσ⟩
  | not => exact .inr ⟨_, σ, rfl, hσ⟩
  | bitNot => exact .inr ⟨_, σ, rfl, hσ⟩

end GivesInt

section Evaluation

variable {engine : EngineTable} {a : Analysis} {calls : Calls} {visible : List VarId}

theorem IntExpr.target {target : Expr} (h : IntExpr engine a visible target)
    (hident : target.root.isIdent = true) : ∃ node name, target = .ident node name := by
  cases target with
  | ident node name => exact ⟨node, name, rfl⟩
  | field => exact (h _ (Expr.self_mem_parts _)).elim
  | _ => cases hident

theorem IntExpr.child {e c : Expr} (h : IntExpr engine a visible e) (hc : c ∈ e.children) :
    IntExpr engine a visible c :=
  fun p hp => h p (Expr.mem_parts_iff.mpr (.inr ⟨c, hc, hp⟩))

theorem IntExpr.simple (hvars : a.VarsOk) {e : Expr}
    (h : IntExpr engine a visible e) (callable : FuncId → Prop) : Simple a callable visible e := by
  intro p hp
  have hpart := h p hp
  cases p with
  | ident node name =>
    intro var href
    rcases hpart with ⟨var', hvar, href'⟩ | ⟨var', info, n, href', hinfo, hkind, hvalue⟩ | ⟨n, hnone, -⟩
    · cases href.symm.trans href'
      exact .inl hvar
    · cases href.symm.trans href'
      have hconst := (hvars var info hinfo).isConst
      rw [hvalue] at hconst
      exact .inr ⟨info, hinfo, hkind, hconst⟩
    · cases hnone.symm.trans href
  | call => exact hpart.elim
  | _ => trivial

variable (hvars : a.VarsOk)
  (hlocals : LocalInts a visible)

include hvars in
theorem givesInt_store {node : Node} {name : String} (hw : Writable a (.ident node name)) (n m : Int32) :
    GivesInt (ConstsHold a visible) (do
      Eval.store (targetVar? a (.ident node name)) (some (.int n))
      return some (.int m)) := by
  intro σ hσ
  have hkept := ensures_store hvars (show Writable a (Expr.ident node name).root from hw)
    (some (.int n)) σ hσ
  obtain ⟨var, info, href, -, -⟩ := hw
  have htarget : targetVar? a (.ident node name) = some var := href
  rw [htarget] at hkept ⊢
  exact .inr ⟨m, σ.set var n, rfl, hkept () _ rfl⟩

include hvars hlocals in
theorem IntExpr.givesInt {e : Expr} (h : IntExpr engine a visible e)
    (hu : Usable engine a visible e) : GivesInt (ConstsHold a visible) (eval engine a calls e) := by
  induction e using Expr.inductionOn with
  | literal node value =>
    have hint := h _ (Expr.self_mem_parts _)
    cases value with
    | int n =>
      rw [eval]
      exact givesInt_pure n
    | _ => cases hint
  | ident node name =>
    intro σ hσ
    rw [eval]
    rcases h _ (Expr.self_mem_parts _) with ⟨var, hvar, href⟩ |
      ⟨var, info, n, href, hinfo, hkind, hvalue⟩ | ⟨n, hnone, hconst⟩
    · obtain ⟨info, hinfo, hkind, -⟩ := hlocals var hvar
      rw [href]
      exact .inr ⟨σ var, σ, by simp [Eval.load, hinfo, hkind], hσ⟩
    · rw [href]
      exact .inr ⟨n, σ, by simp [Eval.load, hinfo, hkind, hvalue], hσ⟩
    · rw [hnone, hconst]
      exact .inr ⟨n, σ, rfl, hσ⟩
  | binary node op lhs rhs ihl ihr =>
    rw [eval]
    apply (ihl (h.child (by simp)) (hu.child (by simp))).bind
    intro m
    cases hshort : shortcut? op (some (.int m)) with
    | none =>
      apply (ihr (h.child (by simp)) (hu.child (by simp))).bind
      exact fun n => givesInt_binary op m n
    | some v =>
      obtain ⟨-, hint⟩ := shortcut?_eq_some hshort
      cases v with
      | int n => exact givesInt_pure n
      | _ => cases hint
  | unary node op operand ih =>
    rw [eval]
    apply (ih (h.child (by simp)) (hu.child (by simp))).bind
    exact fun n => givesInt_unary op n
  | step node s order target ih =>
    have htarget := ih (h.child (by simp)) (hu.child (by simp))
    obtain ⟨_, _, hrule, -⟩ := (usable_iff.mp hu).1
    cases hrule with
    | step hident hwritable _ =>
      cases target with
      | ident node' name =>
        rw [eval]
        apply htarget.bind
        intro n
        cases order with
        | stepFirst => exact givesInt_store hvars hwritable _ _
        | valueFirst => exact givesInt_store hvars hwritable _ _
      | _ => cases hident
  | call => exact (h _ (Expr.self_mem_parts _)).elim
  | assign node op target value iht ihv =>
    have hname := h.child (c := target) (by simp)
    have htarget := iht hname (hu.child (by simp))
    have hvalue := ihv (h.child (by simp)) (hu.child (by simp))
    obtain ⟨_, _, hrule, -⟩ := (usable_iff.mp hu).1
    rw [eval.eq_def]
    cases hrule with
    | assign hident hwritable _ _ =>
      obtain ⟨node', name, rfl⟩ := hname.target hident
      exact hvalue.bind fun n => givesInt_store hvars hwritable n n
    | compound hident hwritable _ _ _ =>
      obtain ⟨node', name, rfl⟩ := hname.target hident
      apply htarget.bind
      intro m
      apply hvalue.bind
      intro n
      apply (givesInt_binary _ m n).bind
      exact fun r => givesInt_store hvars hwritable r r
  | field => exact (h _ (Expr.self_mem_parts _)).elim
  | conditional node cond yes no ihc ihy ihn =>
    rw [eval]
    apply (ihc (h.child (by simp)) (hu.child (by simp))).bind
    intro n
    show GivesInt _ (if (n != 0) = true then eval engine a calls yes else eval engine a calls no)
    split
    · exact ihy (h.child (by simp)) (hu.child (by simp))
    · exact ihn (h.child (by simp)) (hu.child (by simp))

theorem foldBinary_logical {op : BinOp} (hop : op = .logAnd ∨ op = .logOr) {x y v : Value}
    (h : foldBinary op x y = .ok v) : v = .int 0 ∨ v = .int 1 := by
  have htruth : ∀ b, Value.truth b = .int 0 ∨ Value.truth b = .int 1 := by decide
  cases x with
  | int m =>
    cases y with
    | int n =>
      rcases hop with rfl | rfl
      · rw [← Except.ok.inj h]
        exact htruth _
      · rw [← Except.ok.inj h]
        exact htruth _
    | _ => rcases hop with rfl | rfl <;> cases h
  | _ => rcases hop with rfl | rfl <;> cases y <;> cases h

theorem shortcut?_cases {op : BinOp} {x : Option Value} {v : Value} (h : shortcut? op x = some v) :
    v = .int 0 ∨ v = .int 1 := by
  unfold shortcut? at h
  split at h
  · split at h
    · exact .inl (Option.some.inj h).symm
    · cases h
  · split at h
    · cases h
    · exact .inr (Option.some.inj h).symm
  · cases h

theorem eval_logical {node : Node} {op : BinOp} {lhs rhs : Expr} (hop : op = .logAnd ∨ op = .logOr)
    {σ σ' : Store} {v : Option Value}
    (h : eval engine a calls (.binary node op lhs rhs) σ = .done (v, σ')) :
    v = some (.int 0) ∨ v = some (.int 1) := by
  rw [eval, bind_apply] at h
  obtain ⟨⟨x, σ₁⟩, -, h⟩ := Outcome.bind_eq_done h
  cases hshort : shortcut? op x with
  | some w =>
    rw [hshort] at h
    obtain ⟨rfl, -⟩ := Prod.mk.inj (Outcome.done.inj h)
    exact (shortcut?_cases hshort).imp (congrArg some) (congrArg some)
  | none =>
    rw [hshort, Eval.unlessDecided, bind_apply] at h
    obtain ⟨⟨y, σ₂⟩, -, h⟩ := Outcome.bind_eq_done h
    cases x with
    | none => cases h
    | some x =>
      cases y with
      | none => cases h
      | some y =>
        have hfold : Eval.ofFold (foldBinary op x y) σ₂ = .done (v, σ') := h
        cases hr : foldBinary op x y with
        | error reason =>
          rw [hr] at hfold
          cases hfold
        | ok w =>
          rw [hr] at hfold
          obtain ⟨rfl, -⟩ := Prod.mk.inj (Outcome.done.inj hfold)
          exact (foldBinary_logical hop hr).imp (congrArg some) (congrArg some)

end Evaluation

end Machine
end Nwscript
