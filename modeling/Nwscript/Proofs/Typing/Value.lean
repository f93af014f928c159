import Mathlib
import Nwscript.Proofs.Typing.Rules

/-! # Types of constant values

On operands of types that the rules allow, an operator divides by zero or has a result of the type
that the rules give it. So the value of a constant expression has the type of the expression. -/

namespace Nwscript

/-! ## Operators -/

def FoldsTo (r : Except FoldFault Value) (type : Ty) : Prop :=
  r = .error .divisionByZero ∨ ∃ v, r = .ok v ∧ v.type = type

theorem FoldsTo.ok {v : Value} : FoldsTo (.ok v) v.type := .inr ⟨v, rfl, rfl⟩

theorem FoldsTo.truth (b : Bool) : FoldsTo (.ok (.truth b)) .int := FoldsTo.ok

theorem foldInt_foldsTo (op : BinOp) (a b : Int32) : FoldsTo (foldInt op a b) .int := by
  cases op with
  | div | mod =>
    unfold foldInt
    dsimp only
    split
    · exact .inl rfl
    · exact .ok
  | _ => exact .ok

theorem foldArith_foldsTo {op : BinOp} (h : op.isArithmetic = true) (a b : Single)
    (otherwise : Except FoldFault Value) : FoldsTo (foldArith op a b otherwise) .float := by
  cases op with
  | add | sub | mul => exact .ok
  | div =>
    unfold foldArith
    dsimp only
    split
    · exact .inl rfl
    · exact .ok
  | _ => simp [BinOp.isArithmetic] at h

theorem foldEquality_foldsTo {op : BinOp} (h : op.isEquality = true) (equal : Bool) :
    FoldsTo (foldEquality op equal) .int := by
  cases op with
  | eq | ne => exact .truth _
  | _ => simp [BinOp.isEquality] at h

theorem foldFloat_foldsTo {op : BinOp} (h : op.isEquality = true ∨ op.isOrder = true) (a b : Single) :
    FoldsTo (foldArith op a b (foldFloatComparison op a b)) .int := by
  cases op with
  | eq | ne | lt | gt | le | ge => exact .truth _
  | _ => simp [BinOp.isEquality, BinOp.isOrder] at h

theorem foldBinary_foldsTo_equality {op : BinOp} (hop : op.isEquality = true) {x y : Value}
    (h : x.type = y.type) : FoldsTo (foldBinary op x y) .int := by
  have hadd : op ≠ .add := by rintro rfl; simp [BinOp.isEquality] at hop
  have hsub : op ≠ .sub := by rintro rfl; simp [BinOp.isEquality] at hop
  cases x with
  | int a =>
    cases y with
    | int b => exact foldInt_foldsTo op a b
    | _ => simp [Value.type] at h
  | float a =>
    cases y with
    | float b => exact foldFloat_foldsTo (.inl hop) a b
    | _ => simp [Value.type] at h
  | string a =>
    cases y with
    | string b =>
      rw [foldBinary, if_neg hadd]
      exact foldEquality_foldsTo hop _
    | _ => simp [Value.type] at h
  | object a =>
    cases y with
    | object b => exact foldEquality_foldsTo hop _
    | _ => simp [Value.type] at h
  | vector a b c =>
    cases y with
    | vector x y z =>
      rw [foldBinary, if_neg hadd, if_neg hsub]
      exact foldEquality_foldsTo hop _
    | _ => simp [Value.type] at h

/-- On operands that the rules allow, an operator divides by zero or has a result of the type that
the rules give it. -/
theorem foldBinary_foldsTo {op : BinOp} {x y : Value} {type : Ty}
    (htype : binaryType? op x.type y.type = some type) : FoldsTo (foldBinary op x y) type := by
  by_cases hop : op.isEquality = true
  · unfold binaryType? at htype
    rw [if_pos hop] at htype
    split at htype
    · next h =>
      cases htype
      simp only [Bool.and_eq_true, decide_eq_true_eq] at h
      exact foldBinary_foldsTo_equality hop h.1
    · cases htype
  · unfold binaryType? at htype
    rw [if_neg hop] at htype
    cases x with
    | int a =>
      cases y with
      | int b =>
        cases htype
        exact foldInt_foldsTo op a b
      | float b =>
        simp only [Value.type] at htype
        split at htype
        · next h =>
          cases htype
          exact foldArith_foldsTo h _ b _
        · cases htype
      | _ => simp [Value.type] at htype
    | float a =>
      cases y with
      | int b =>
        simp only [Value.type] at htype
        split at htype
        · next h =>
          cases htype
          exact foldArith_foldsTo h a _ _
        · cases htype
      | float b =>
        simp only [Value.type] at htype
        split at htype
        · next h =>
          cases htype
          exact foldArith_foldsTo h a b _
        · split at htype
          · next h =>
            cases htype
            exact foldFloat_foldsTo (.inr h) a b
          · cases htype
      | vector x y z =>
        simp only [Value.type] at htype
        split at htype
        · next h =>
          cases htype
          subst h
          exact .ok
        · cases htype
      | _ => simp [Value.type] at htype
    | string a =>
      cases y with
      | string b =>
        simp only [Value.type] at htype
        split at htype
        · next h =>
          cases htype
          subst h
          exact .ok
        · cases htype
      | _ => simp [Value.type] at htype
    | object a => cases y <;> simp [Value.type] at htype
    | vector a b c =>
      cases y with
      | float k =>
        simp only [Value.type] at htype
        split at htype
        · next h =>
          cases htype
          rcases (by simpa using h : op = .mul ∨ op = .div) with rfl | rfl
          · exact .ok
          · simp only [foldBinary, reduceCtorEq, if_false, if_true]
            split
            · exact .inl rfl
            · exact .ok
        · cases htype
      | vector x y z =>
        simp only [Value.type] at htype
        split at htype
        · next h =>
          cases htype
          rcases (by simpa using h : op = .add ∨ op = .sub) with rfl | rfl
          · exact .ok
          · exact .ok
        · cases htype
      | _ => simp [Value.type] at htype

theorem foldUnary_foldsTo {op : UnOp} {x : Value} (h : unaryApplies op x.type = true) :
    ∃ v, foldUnary op x = .ok v ∧ v.type = x.type := by
  cases op <;> cases x <;> simp [unaryApplies, Value.type] at h <;> exact ⟨_, rfl, rfl⟩

/-! ## Expressions -/

def HasTypedValue (a : Analysis) (e : Expr) : Prop :=
  ∀ v type, a.valueOf e = some v → a.typeOf e = some type → v.type = type

theorem TypeRule.value_type {engine : EngineTable} {a : Analysis} {e : Expr} {type : Ty} {v : Value}
    (h : TypeRule engine a e type (some v)) (hvars : ∀ (var : VarId) info,
      a.vars[var]? = some info → VarOk info) (hparts : ∀ c ∈ e.children, HasTypedValue a c) :
    v.type = type := by
  generalize hr : some v = r at h
  cases h with
  | literal => rw [Option.some.inj hr]
  | «variable» href hinfo => exact (hvars _ _ hinfo).type v hr.symm
  | engineConstant => rw [Option.some.inj hr]
  | binary hleft hright htype =>
    obtain ⟨x, hx, hr⟩ := Option.bind_eq_some_iff.mp hr.symm
    obtain ⟨y, hy, hr⟩ := Option.bind_eq_some_iff.mp hr
    obtain rfl := hparts _ (by simp) x _ hx hleft
    obtain rfl := hparts _ (by simp) y _ hy hright
    rcases foldBinary_foldsTo htype with h | ⟨w, h, hw⟩
    · simp [h, Except.toOption] at hr
    · rw [h] at hr
      rwa [← Option.some.inj hr]
  | unary htype happlies =>
    obtain ⟨x, hx, hr⟩ := Option.bind_eq_some_iff.mp hr.symm
    obtain rfl := hparts _ (by simp) x _ hx htype
    obtain ⟨w, h, hw⟩ := foldUnary_foldsTo happlies
    rw [h] at hr
    rwa [← Option.some.inj hr]
  | step => cases hr
  | userCall => cases hr
  | engineCall => cases hr
  | assign => cases hr
  | compound => cases hr
  | field htype hfield =>
    unfold foldedField at hr
    split at hr
    · next x y z hbase =>
      obtain rfl := hparts _ (by simp) _ _ hbase htype
      obtain ⟨component, -, rfl⟩ := Option.map_eq_some_iff.mp hr.symm
      exact (StructTable.component_of_field? hfield x y z).1.symm
    · cases hr
  | conditional hcond hyes hno =>
    unfold foldedChoice at hr
    split at hr
    · split at hr
      · exact hparts _ (by simp) v _ hr.symm hyes
      · exact hparts _ (by simp) v _ hr.symm hno
    · cases hr

theorem hasTypedValue {engine : EngineTable} {a : Analysis} {e : Expr} (hok : ExprOk engine a e)
    (hvars : a.VarsOk) : HasTypedValue a e := by
  induction e using Expr.childInduction with
  | h e ih =>
    intro v type hv htype
    obtain ⟨type', value, hrule, htype', hvalue⟩ := hok e e.self_mem_parts
    cases htype.symm.trans htype'
    obtain rfl := hv.symm.trans hvalue
    refine hrule.value_type hvars fun c hc => ih c hc fun p hp => ?_
    exact hok p (Expr.mem_parts_iff.mpr (.inr ⟨c, hc, hp⟩))

end Nwscript
