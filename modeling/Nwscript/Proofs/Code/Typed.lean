import Nwscript.Proofs.Code.Program

/-! # Depths and types

The code of an expression leaves a value of its type on the stack. -/

open List

namespace Nwscript

open Gen

def PieceOk (c : GenContext) (visible : List VarId) : ExprPiece → Prop
  | .expr e => Usable c.engine c.analysis visible e
  | .userArgs _ args | .engineArgs _ args => ∀ e ∈ args, Usable c.engine c.analysis visible e

def PieceSize (c : GenContext) (piece : ExprPiece) (size : Int) : Prop :=
  match piece with
  | .expr e => ∀ type, c.analysis.typeOf e = some type → size = c.analysis.sizeOf type
  | .userArgs params _ => size = (params.map fun p => c.analysis.sizeOf p.type).sum
  | .engineArgs params args => size = suppliedSize c.analysis args.length params

section Typed

variable {Γ : CodeEnv} {f : Frame} {visible : List VarId} {locals : List (VarId × Int)}
  {piece : ExprPiece} {d d' : Int} {ops : List Op}

theorem Usable.binary {engine : EngineTable} {a : Analysis} {node : Node} {op : BinOp} {lhs rhs : Expr}
    (h : Usable engine a visible (.binary node op lhs rhs)) {type : Ty}
    (htype : a.typeOf (.binary node op lhs rhs) = some type) :
    ∃ left right, a.typeOf lhs = some left ∧ a.typeOf rhs = some right ∧
      binaryType? op left right = some type := by
  obtain ⟨value, hrule⟩ := h.exists_rule htype
  cases hrule with
  | binary hl hr ht => exact ⟨_, _, hl, hr, ht⟩

/-- **The code of an expression leaves a value of its type.** -/
theorem ExprCode.size (hc : Γ.ctx.Ok) (hplaced : Placed Γ.ctx visible locals)
    (h : ExprCode Γ f locals piece d ops d') (hok : PieceOk Γ.ctx visible piece) :
    PieceSize Γ.ctx piece (d' - d) := by
  induction h with
  | @constant e v d hv =>
    intro type htype
    have hsame := Option.some.inj (htype.symm.trans (hc.value_type hok hv))
    rw [hsame]
    omega
  | @loadVar node name var info slot d href hinfo _ =>
    intro type htype
    obtain ⟨value, hrule⟩ := Usable.exists_rule hok htype
    cases hrule with
    | «variable» href' hinfo' =>
      cases href.symm.trans href'
      cases hinfo.symm.trans hinfo'
      omega
    | engineConstant hnone _ =>
      cases href.symm.trans hnone
  | @shortCircuit node op lhs rhs d left right onward join hop _ _ _ _ _ _ =>
    intro type htype
    obtain ⟨leftType, rightType, -, -, hbinary⟩ := Usable.binary hok htype
    obtain ⟨-, -, rfl⟩ := binaryType?_logical hop hbinary
    show d + cellSize - d = cellSize
    omega
  | @binary node op lhs rhs d d₁ d₂ d' left right leftType rightType i _ _ _ _ hl hr hi heffect ihl ihr =>
    intro type htype
    obtain ⟨leftType', rightType', hl', hr', hbinary⟩ := Usable.binary hok htype
    cases hl.symm.trans hl'
    cases hr.symm.trans hr'
    have hlok := Usable.child hok (c := lhs) (by simp)
    have hrok := Usable.child hok (c := rhs) (by simp)
    obtain ⟨i', hi', heffect'⟩ := binaryInstr?_effect hc hbinary (hc.hasSlot hplaced hlok hl)
    cases hi.symm.trans hi'
    have hdiff := Option.some.inj (heffect.symm.trans heffect')
    have hleft := ihl hlok leftType hl
    have hright := ihr hrok rightType hr
    rw [typedEffect] at hdiff
    omega
  | @unary node op operand d d' value type hvalue htype ih =>
    intro type' htype'
    obtain ⟨known, hrule⟩ := Usable.exists_rule hok htype'
    cases hrule with
    | unary ht _ => exact ih (Usable.child hok (by simp)) type' ht
  | @stepFirst node s target var slot d _ _ =>
    intro type htype
    obtain ⟨known, hrule⟩ := Usable.exists_rule hok htype
    cases hrule with
    | step _ _ _ =>
      show d + cellSize - d = cellSize
      omega
  | @valueFirst node s target var slot d _ _ _ =>
    intro type htype
    obtain ⟨known, hrule⟩ := Usable.exists_rule hok htype
    cases hrule with
    | step _ _ _ =>
      show d + cellSize - d = cellSize
      omega
  | @userCall node name args func info label d d₁ pushed hcall hinfo _ _ ih =>
    intro type htype
    have hargs := ih fun e he => Usable.child hok he
    obtain ⟨known, hrule⟩ := Usable.exists_rule hok htype
    cases hrule with
    | userCall hcall' hinfo' _ _ _ =>
      obtain rfl := Callee.user.inj (Option.some.inj (hcall.symm.trans hcall'))
      cases hinfo.symm.trans hinfo'
      have hcells := Progress.size_resultCells hc info
      simp only [PieceSize] at hargs
      rw [paramsSize]
      omega
    | engineCall hcall' _ _ =>
      cases hcall.symm.trans hcall'
  | @engineCall node name args info d d₁ pushed hcall hinfo _ ih =>
    intro type htype
    have hargs := ih fun e he => Usable.child hok he
    obtain ⟨known, hrule⟩ := Usable.exists_rule hok htype
    cases hrule with
    | userCall hcall' _ _ _ _ =>
      cases hcall.symm.trans hcall'
    | @engineCall _ _ _ info' hcall' hinfo' _ =>
      have hord := Callee.engine.inj (Option.some.inj (hcall.symm.trans hcall'))
      have hat := (hc.engine.functionAt? hinfo').1
      rw [← hord, hinfo] at hat
      cases hat
      simp only [PieceSize] at hargs
      omega
  | @assign node target value part slot d d₁ new _ _ _ ih =>
    intro type htype
    obtain ⟨known, hrule⟩ := Usable.exists_rule hok htype
    cases hrule with
    | assign _ _ _ ht => exact ih (Usable.child hok (by simp)) type ht
  | @compound node op target value part slot d d₁ d' right type i hpart _ _ hvalue hi heffect _ ih =>
    intro type' htype'
    obtain ⟨known, hrule⟩ := Usable.exists_rule hok htype'
    cases hrule with
    | compound _ _ ht hvalue' hbinary =>
      have htarget := Usable.child hok (c := target) (by simp)
      cases hvalue.symm.trans hvalue'
      cases ht.symm.trans (placeOk_of_placeOf hc htarget hpart).type
      obtain ⟨i', hi', heffect'⟩ := binaryInstr?_effect hc hbinary (hc.hasSlot hplaced htarget ht)
      cases hi.symm.trans hi'
      have hdiff := Option.some.inj (heffect.symm.trans heffect')
      have hright := ih (Usable.child hok (by simp)) type hvalue
      rw [typedEffect] at hdiff
      omega
  | @fieldOfVariable node base name part slot d hpart _ =>
    intro type htype
    have hplace := (placeOk_of_placeOf hc hok hpart).type
    cases htype.symm.trans hplace
    omega
  | @fieldOfValue node base name baseType type offset d d₁ value hbase hfield _ ih =>
    intro type' htype
    obtain ⟨known, hrule⟩ := Usable.exists_rule hok htype
    cases hrule with
    | field hbase' hfield' =>
      cases hbase.symm.trans hbase'
      cases hfield.symm.trans hfield'
      have hvalue := ih (Usable.child hok (by simp)) baseType hbase
      omega
  | @conditional node cond yes no d d' test first second other join _ _ _ _ _ ihc ihy ihn =>
    intro type htype
    obtain ⟨known, hrule⟩ := Usable.exists_rule hok htype
    cases hrule with
    | conditional _ hyes _ => exact ihy (Usable.child hok (by simp)) type hyes
  | noArgs =>
    simp only [PieceSize, map_nil, sum_nil]
    omega
  | default _ _ _ ih =>
    have hl := ih (by simp [PieceOk])
    simp only [PieceSize, map_cons, sum_cons] at hl ⊢
    omega
  | arg _ _ ihl _ =>
    have hl := ihl fun e he => hok e (.tail _ he)
    simp only [PieceSize, map_cons, sum_cons] at hl ⊢
    omega
  | noEngineArgs =>
    simp [PieceSize, suppliedSize]
  | engineArg haction _ _ ihl _ =>
    have hl := ihl fun e he => hok e (.tail _ he)
    simp only [PieceSize, suppliedSize, length_cons, take_succ_cons, map_cons,
      sum_cons, if_neg haction] at hl ⊢
    omega
  | action haction _ _ _ _ _ ihl _ =>
    have hl := ihl fun e he => hok e (.tail _ he)
    simp only [PieceSize, suppliedSize, length_cons, take_succ_cons, map_cons,
      sum_cons, if_pos haction] at hl ⊢
    omega

end Typed

end Nwscript
