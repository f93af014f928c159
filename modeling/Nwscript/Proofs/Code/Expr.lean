import Nwscript.Proofs.Code.Progress

/-! # Code of expressions

Code generation compiles every expression that the typing rules allow, and the lines have the shape
of the relation. -/

open List Option

namespace Nwscript
namespace Gen

def Compiles (c : GenContext) (f : Frame) (visible : List VarId) (piece : ExprPiece) (size : Int)
    (g : Gen (List Op)) : Prop :=
  ∀ E s, s.Ok c.analysis E → Placed c visible s.locals → Ends Overflows g s fun ops s' => ∃ E',
    Progress c E s [] [] ops (fun Γ => ExprCode Γ f s.locals piece s.depth ops (s.depth + size)) E' s'
      s.locals (s.depth + size)

variable {c : GenContext} {f : Frame} {visible : List VarId}

variable {s : GenState} {size : Int} {E : Depths} {e target : Expr} {node : Node}
  {right : Gen (List Op)} {op : BinOp} {type : Ty} {name : String} {var : VarId} {info : VarInfo}
  {part : Part} {params : List FuncParam} {args : List Expr}

theorem Compiles.run {piece : ExprPiece} {g : Gen (List Op)}
    (hg : Compiles c f visible piece size g) {E₀ : Depths} {s₀ : GenState}
    {pending marked : List (Label × Int)} {ops : List Op} {known : CodeEnv → Prop}
    {locals : List (VarId × Int)} {d : Int}
    (h : Progress c E₀ s₀ pending marked ops known E s locals d) (hplaced : Placed c visible locals)
    {Q : List Op → GenState → Prop} (k : ∀ ops' E' s', Progress c E₀ s₀ pending marked (ops ++ ops')
      (fun Γ => known Γ ∧ ExprCode Γ f locals piece d ops' (d + size)) E' s' locals (d + size) →
        Q ops' s') : Ends Overflows g s Q := by
  refine (hg E s h.ok (by rw [h.locals_eq]; exact hplaced)).mono fun ops' s' ⟨E', h'⟩ => ?_
  rw [h.depth_eq, h.locals_eq] at h'
  exact k ops' E' s' (h.append h')

/-! ## Operators -/

theorem compiles_constant {v : Value} (hv : c.analysis.valueOf e = some v) :
    Compiles c f visible (.expr e) (c.analysis.sizeOf v.type) (constant v) := by
  intro E s hok _
  refine (Progress.start hok).meets_constant fun s' h => ?_
  refine ⟨E, h.finish ?_⟩
  rintro Γ rfl
  exact .constant hv

theorem compiles_shortCircuit (hop : op = .logAnd ∨ op = .logOr) {lhs rhs : Expr}
    {left : Gen (List Op)} (hl : Compiles c f visible (.expr lhs) cellSize left)
    (hr : Compiles c f visible (.expr rhs) cellSize right) :
    Compiles c f visible (.expr (.binary node op lhs rhs)) cellSize (shortCircuit op left right) := by
  intro E s hok hplaced
  have hkind (label : Label) : (Op.jump (onwardJump op) label).effect? = some (-cellSize) := by
    rcases hop with rfl | rfl <;> rfl
  have heffect : (Instr.binary (Opcode.ofBinOp op) PairByte.intInt).effect? = some (-cellSize) := rfl
  simp only [shortCircuit, ends_bind, ends_pure]
  refine (Progress.start hok).meets_newLabel (s.depth + cellSize) fun onward _ _ h => ?_
  refine h.meets_newLabel (s.depth + cellSize + cellSize) fun join _ _ h => ?_
  refine hl.run h hplaced fun leftOps _ _ h => ?_
  refine h.meets_depth ?_
  refine h.meets_duplicate fun _ h => ?_
  refine h.meets_jump (hkind onward) (h.label (.head _))
    (by dsimp only; omega) fun _ h => ?_
  refine h.meets_duplicate fun _ h => ?_
  refine h.meets_jump rfl (h.label (.tail _ (.head _)))
    (Int.add_zero _) fun _ h => ?_
  refine h.meets_setDepth fun _ h => ?_
  refine h.meets_mark fun _ h => ?_
  refine hr.run h hplaced fun rightOps _ _ h => ?_
  refine h.meets_mark fun _ h => ?_
  refine h.meets_emit heffect (Int.add_neg_cancel_right ..) fun _ h => ?_
  refine ⟨_, h.finish ?_⟩
  rintro Γ ⟨⟨⟨⟨⟨⟨rfl, hleft⟩, -⟩, -⟩, honward⟩, hright⟩, hjoin⟩
  exact .shortCircuit hop hleft hright honward hjoin

theorem compiles_choice {cond yes no : Expr} {test first second : Gen (List Op)}
    (hcond : Compiles c f visible (.expr cond) cellSize test)
    (hyes : Compiles c f visible (.expr yes) size first)
    (hno : Compiles c f visible (.expr no) size second) :
    Compiles c f visible (.expr (.conditional node cond yes no)) size (choice test first second) := by
  intro E s hok hplaced
  simp only [choice, ends_bind, ends_pure]
  refine (Progress.start hok).meets_newLabel s.depth fun other _ _ h => ?_
  refine h.meets_newLabel (s.depth + size) fun join _ _ h => ?_
  refine hcond.run h hplaced fun testOps _ _ h => ?_
  refine h.meets_jump rfl (h.label (.head _)) (Int.add_neg_cancel_right ..)
    fun _ h => ?_
  refine h.meets_depth ?_
  refine hyes.run h hplaced fun firstOps _ _ h => ?_
  refine h.meets_jump rfl (h.label (.tail _ (.head _)))
    (Int.add_zero _) fun _ h => ?_
  refine h.meets_setDepth fun _ h => ?_
  refine h.meets_mark fun _ h => ?_
  refine hno.run h hplaced fun secondOps _ _ h => ?_
  refine h.meets_mark fun _ h => ?_
  refine ⟨_, h.finish ?_⟩
  rintro Γ ⟨⟨⟨⟨⟨⟨⟨rfl, htest⟩, -⟩, hfirst⟩, -⟩, hother⟩, hsecond⟩, hjoin⟩
  exact .conditional htest hfirst hsecond hother hjoin

theorem compiles_binary (hc : c.Ok) {lhs rhs : Expr} {leftType rightType : Ty}
    {left : Gen (List Op)} (hand : op ≠ .logAnd) (hor : op ≠ .logOr)
    (hleft : c.analysis.typeOf lhs = some leftType)
    (hright : c.analysis.typeOf rhs = some rightType)
    (htype : binaryType? op leftType rightType = some type)
    (hslot : ∀ locals, Placed c visible locals → leftType.HasSlot)
    (hl : Compiles c f visible (.expr lhs) (c.analysis.sizeOf leftType) left)
    (hr : Compiles c f visible (.expr rhs) (c.analysis.sizeOf rightType) right) :
    Compiles c f visible (.expr (.binary node op lhs rhs)) (c.analysis.sizeOf type) (do
      let l ← left
      let r ← right
      let a ← typeOf c lhs
      let b ← typeOf c rhs
      return l ++ r ++ (← binaryOp c op a b)) := by
  intro E s hok hplaced
  have ha : c.analysis.types.get? lhs.id = some leftType := hleft
  have hb : c.analysis.types.get? rhs.id = some rightType := hright
  simp only [ends_bind, ends_pure, typeOf, ha, hb, orFault]
  refine hl.run (Progress.start hok) hplaced fun leftOps _ _ h => ?_
  refine hr.run h hplaced fun rightOps _ _ h => ?_
  have hd : s.depth + c.analysis.sizeOf leftType + c.analysis.sizeOf rightType +
      typedEffect c.analysis leftType rightType type = s.depth + c.analysis.sizeOf type := by
    unfold typedEffect
    omega
  refine h.meets_binaryOp hc htype (hslot _ hplaced) hd fun i hi heffect _ h => ?_
  refine ⟨_, h.finish ?_⟩
  rintro Γ ⟨⟨rfl, hleftCode⟩, hrightCode⟩
  exact .binary hand hor hleftCode hrightCode hleft hright hi heffect

theorem compiles_unary {op : UnOp} {operand : Expr} {value : Gen (List Op)}
    (htype : c.analysis.typeOf operand = some type)
    (hv : Compiles c f visible (.expr operand) (c.analysis.sizeOf type) value) :
    Compiles c f visible (.expr (.unary node op operand)) (c.analysis.sizeOf type) (do
      let v ← value
      return v ++ (← emit (unaryInstr op (← typeOf c operand)))) := by
  intro E s hok hplaced
  have ht : c.analysis.types.get? operand.id = some type := htype
  simp only [ends_bind, ends_pure, typeOf, ht, orFault]
  refine hv.run (Progress.start hok) hplaced fun valueOps _ _ h => ?_
  refine h.meets_emit (effect?_unaryInstr op type) (Int.add_zero _) fun _ h => ?_
  refine ⟨_, h.finish ?_⟩
  rintro Γ ⟨rfl, hvalue⟩
  exact .unary hvalue htype

/-! ## Variables -/

theorem compiles_load (hc : c.Ok) (href : c.analysis.refs.get? node.id = some var)
    (hinfo : c.analysis.vars[var]? = some info)
    (hslot : ∀ locals, Placed c visible locals → ∃ slot, slotOf c locals var = some slot) :
    Compiles c f visible (.expr (.ident node name)) (c.analysis.sizeOf info.type)
      (load c var 0 (c.analysis.sizeOf info.type)) := by
  intro E s hok hplaced
  obtain ⟨slot, hs⟩ := hslot _ hplaced
  refine (Progress.start hok).meets_load (hc.isOperand _) hs fun haddr _ h => ?_
  refine ⟨_, h.finish ?_⟩
  rintro Γ rfl
  exact .loadVar href hinfo haddr

theorem isOperand_cellSize : IsOperand cellSize := by
  unfold IsOperand cellSize
  omega

theorem compiles_stepAndLoad {st : Step} {order : StepOrder}
    (href : c.analysis.refs.get? target.id = some var)
    (hslot : ∀ locals, Placed c visible locals → ∃ slot, slotOf c locals var = some slot) :
    Compiles c f visible (.expr (.step node st order target)) cellSize
      (stepAndLoad c st order var) := by
  intro E s hok hplaced
  obtain ⟨slot, hs⟩ := hslot _ hplaced
  have h := Progress.start hok
  cases order with
  | stepFirst =>
    simp only [stepAndLoad, ends_bind, ends_pure]
    refine h.meets_stepVar hs fun haddr _ h => ?_
    refine h.meets_load isOperand_cellSize hs fun _ _ h => ?_
    refine ⟨_, h.finish ?_⟩
    rintro Γ rfl
    exact .stepFirst href haddr
  | valueFirst =>
    simp only [stepAndLoad, ends_bind, ends_pure]
    refine h.meets_load isOperand_cellSize hs fun haddr _ h => ?_
    refine h.meets_stepVar hs fun haddr' _ h => ?_
    refine ⟨_, h.finish ?_⟩
    rintro Γ rfl
    exact .valueFirst href haddr haddr'

theorem compiles_loadPart (hc : c.Ok) {base : Expr}
    (hpart : placeOf c.analysis (.field node base name) = some part)
    (hslot : ∀ locals, Placed c visible locals → ∃ slot, slotOf c locals part.var = some slot) :
    Compiles c f visible (.expr (.field node base name)) (c.analysis.sizeOf part.type)
      (load c part.var part.offset (c.analysis.sizeOf part.type)) := by
  intro E s hok hplaced
  obtain ⟨slot, hs⟩ := hslot _ hplaced
  refine (Progress.start hok).meets_load (hc.isOperand _) hs fun haddr _ h => ?_
  refine ⟨_, h.finish ?_⟩
  rintro Γ rfl
  exact .fieldOfVariable hpart haddr

theorem compiles_keepField (hc : c.Ok) {base : Expr} {baseType : Ty} {offset : Int}
    {value : Gen (List Op)} (hbase : c.analysis.typeOf base = some baseType)
    (hfield : c.analysis.structs.field? baseType name = some (offset, type))
    (hv : Compiles c f visible (.expr base) (c.analysis.sizeOf baseType) value) :
    Compiles c f visible (.expr (.field node base name)) (c.analysis.sizeOf type)
      (keepField c baseType name value) := by
  intro E s hok hplaced
  simp only [keepField, hfield, orFault, ends_bind, ends_pure]
  refine hv.run (Progress.start hok) hplaced fun valueOps _ _ h => ?_
  have heffect (keep : UInt16) : (Instr.destruct (.ofInt (c.analysis.sizeOf baseType)) keep
      (.ofInt (c.analysis.sizeOf type))).effect? =
        some (c.analysis.sizeOf type - c.analysis.sizeOf baseType) := by
    rw [Instr.effect?_destruct, (hc.isOperand type).toNat_ofInt, (hc.isOperand baseType).toNat_ofInt]
  have hd : s.depth + c.analysis.sizeOf baseType +
      (c.analysis.sizeOf type - c.analysis.sizeOf baseType) = s.depth + c.analysis.sizeOf type := by
    omega
  refine h.meets_emit (heffect _) hd fun _ h => ?_
  refine ⟨_, h.finish ?_⟩
  rintro Γ ⟨rfl, hvalue⟩
  rw [← hd]
  exact .fieldOfValue hbase hfield hvalue

theorem compiles_assign {value : Expr} {new : Gen (List Op)}
    (hpart : placeOf c.analysis target = some part)
    (hslot : ∀ locals, Placed c visible locals → ∃ slot, slotOf c locals part.var = some slot)
    (hv : Compiles c f visible (.expr value) (c.analysis.sizeOf part.type) new) :
    Compiles c f visible (.expr (.assign node none target value)) (c.analysis.sizeOf part.type) (do
      let n ← new
      return n ++ (← store c part.var part.offset (c.analysis.sizeOf part.type))) := by
  intro E s hok hplaced
  obtain ⟨slot, hs⟩ := hslot _ hplaced
  simp only [ends_bind, ends_pure]
  refine hv.run (Progress.start hok) hplaced fun newOps _ _ h => ?_
  refine h.meets_store hs fun haddr _ h => ?_
  refine ⟨_, h.finish ?_⟩
  rintro Γ ⟨rfl, hnew⟩
  exact .assign hpart hnew haddr

theorem compiles_compound (hc : c.Ok) {value : Expr} (hpart : placeOf c.analysis target = some part)
    (hslot : ∀ locals, Placed c visible locals → ∃ slot, slotOf c locals part.var = some slot)
    (hvalue : c.analysis.typeOf value = some type)
    (htype : binaryType? op part.type type = some part.type)
    (hhas : ∀ locals, Placed c visible locals → part.type.HasSlot)
    (hr : Compiles c f visible (.expr value) (c.analysis.sizeOf type) right) :
    Compiles c f visible (.expr (.assign node (some op) target value))
      (c.analysis.sizeOf part.type) (do
        let old ← load c part.var part.offset (c.analysis.sizeOf part.type)
        let r ← right
        let result ← binaryOp c op part.type (← typeOf c value)
        return old ++ r ++ result ++
          (← store c part.var part.offset (c.analysis.sizeOf part.type))) := by
  intro E s hok hplaced
  obtain ⟨slot, hs⟩ := hslot _ hplaced
  have ht : c.analysis.types.get? value.id = some type := hvalue
  simp only [ends_bind, ends_pure, typeOf, ht, orFault]
  refine (Progress.start hok).meets_load (hc.isOperand _) hs fun haddr _ h => ?_
  refine hr.run h hplaced fun rightOps _ _ h => ?_
  have hd : s.depth + c.analysis.sizeOf part.type + c.analysis.sizeOf type +
      typedEffect c.analysis part.type type part.type = s.depth + c.analysis.sizeOf part.type := by
    unfold typedEffect
    omega
  refine h.meets_binaryOp hc htype (hhas _ hplaced) hd fun i hi heffect _ h => ?_
  refine h.meets_store hs fun haddr' _ h => ?_
  refine ⟨_, h.finish ?_⟩
  rintro Γ ⟨rfl, hright⟩
  exact .compound hpart haddr hright hvalue hi heffect haddr'

/-! ## Calls of functions of the program -/

theorem compiles_defaults {index : Nat}
    (hdefaults : ∀ p ∈ params, ∃ v, p.default = some v ∧ v.type = p.type) :
    Compiles c f visible (.userArgs params []) (params.map fun p => c.analysis.sizeOf p.type).sum
      (defaults name index params) := by
  induction params generalizing index with
  | nil =>
    intro E s hok _
    have h := Progress.start hok
    simp only [defaults, ends_pure, map_nil, sum_nil, Int.add_zero]
    exact ⟨E, h.weaken fun Γ _ => .noArgs⟩
  | cons p params ih =>
    intro E s hok hplaced
    obtain ⟨v, hv, htype⟩ := hdefaults p (.head _)
    have hrest : Compiles c f visible (.userArgs params []) _ (defaults name (index + 1) params) :=
      ih fun q hq => hdefaults q (.tail _ hq)
    simp only [defaults, hv, orFault, ends_bind, ends_pure, map_cons, sum_cons]
    refine hrest.run (Progress.start hok) hplaced fun laterOps _ _ h => ?_
    refine h.meets_constant fun _ h => ?_
    have hd : s.depth + (params.map fun p => c.analysis.sizeOf p.type).sum +
        c.analysis.sizeOf v.type = s.depth + (c.analysis.sizeOf p.type +
          (params.map fun p => c.analysis.sizeOf p.type).sum) := by
      rw [htype]
      omega
    rw [hd] at h
    refine ⟨_, h.finish ?_⟩
    rintro Γ ⟨rfl, hlater⟩
    rw [← hd, htype]
    exact .default hv htype hlater

theorem compiles_userArgs {index : Nat} (hargs : ∀ e ∈ args, ∀ type, c.analysis.typeOf e = some type →
      Compiles c f visible (.expr e) (c.analysis.sizeOf type) (expr c f e))
    (htypes : ArgsOk c.analysis args (params.map FuncParam.type))
    (hparams : ∀ p ∈ params, p.type ≠ .action)
    (hdefaults : ∀ p ∈ params.drop args.length, ∃ v, p.default = some v ∧ v.type = p.type) :
    Compiles c f visible (.userArgs params args) (params.map fun p => c.analysis.sizeOf p.type).sum
      (userArgs c f name index params args) := by
  induction args generalizing params index with
  | nil =>
    rw [userArgs]
    exact compiles_defaults hdefaults
  | cons arg args ih =>
    cases params with
    | nil => cases htypes
    | cons p params =>
      obtain ⟨harg, hrest⟩ := htypes
      rw [ArgOk, if_neg (hparams p (.head _))] at harg
      intro E s hok hplaced
      have hlater : Compiles c f visible (.userArgs params args) _
          (userArgs c f name (index + 1) params args) :=
        ih (fun e he => hargs e (.tail _ he)) hrest
          (fun q hq => hparams q (.tail _ hq)) hdefaults
      have hvalue := hargs arg (.head _) p.type harg
      simp only [userArgs, ends_bind, ends_pure, map_cons, sum_cons]
      refine hlater.run (Progress.start hok) hplaced fun laterOps _ _ h => ?_
      refine hvalue.run h hplaced fun valueOps _ _ h => ?_
      have hd : s.depth + (params.map fun p => c.analysis.sizeOf p.type).sum +
          c.analysis.sizeOf p.type = s.depth + (c.analysis.sizeOf p.type +
            (params.map fun p => c.analysis.sizeOf p.type).sum) := by
        omega
      rw [hd] at h
      refine ⟨_, h.finish ?_⟩
      rintro Γ ⟨⟨rfl, hlater⟩, hvalue⟩
      rw [← hd] at hvalue ⊢
      exact .arg hlater hvalue

theorem foldr_paramsSize (a : Analysis) (info : FuncInfo) :
    info.params.foldr (fun p size => a.sizeOf p.type + size) 0 = paramsSize a info := by
  rw [paramsSize, sum_eq_foldr, foldr_map]

theorem compiles_userCall (hc : c.Ok) {func : FuncId} {info : FuncInfo} {pushed : Gen (List Op)}
    (hcall : c.analysis.calls.get? node.id = some (.user func))
    (hinfo : c.analysis.functions[func]? = some info) (hdef : info.defined = true)
    (hargs : Compiles c f visible (.userArgs info.params args) (paramsSize c.analysis info) pushed) :
    Compiles c f visible (.expr (.call node name args)) (c.analysis.sizeOf info.ret)
      (userCall c func info pushed) := by
  intro E s hok hplaced
  have hret := (hc.signatures func info hinfo).ret
  simp only [userCall, ends_bind, ends_pure, foldr_paramsSize]
  refine (Progress.start hok).meets_reserveResult hc hret fun _ h => ?_
  refine hargs.run h hplaced fun pushedOps _ _ h => ?_
  refine h.meets_funcLabel hinfo hdef fun label _ _ h => ?_
  refine h.meets_emitCall rfl (Int.add_neg_cancel_right ..) fun _ h => ?_
  refine ⟨_, h.finish ?_⟩
  rintro Γ ⟨⟨rfl, hpushed⟩, hlabel⟩
  have hd : s.depth + Γ.ctx.analysis.sizeOf info.ret = s.depth + Γ.ctx.analysis.sizeOf info.ret +
      paramsSize Γ.ctx.analysis info - paramsSize Γ.ctx.analysis info := by
    omega
  rw [hd]
  exact .userCall hcall hinfo hlabel (by rw [Progress.size_resultCells hc]; exact hpushed)

/-! ## Calls of functions of the engine -/

theorem meets_storedAction {arg : Expr} {call : Gen (List Op)}
    (hcall : Compiles c f visible (.expr arg) size call) (hsize : 0 ≤ size)
    (hok : s.Ok c.analysis E) (hplaced : Placed c visible s.locals) :
    Ends Overflows (storedAction c f call) s fun ops s' => ∃ E', Progress c E s [] [] ops
      (fun Γ => ∃ after body, Γ.ctx = c ∧ Fits (f.paramsSize + s.depth) ∧
        ExprCode Γ f s.locals (.expr arg) s.depth body (s.depth + size) ∧
        PopFits (s.depth + size) s.depth ∧ Γ.depth after = some s.depth ∧
        ops = [saveOp c f s.depth] ++ [Op.jump .always after] ++ body ++
          popOps (s.depth + size) s.depth ++ [Op.instr .ret] ++
            [Op.mark after]) E' s' s.locals s.depth := by
  simp only [storedAction, ends_bind, ends_pure]
  refine (Progress.start hok).meets_newLabel s.depth fun after _ _ h => ?_
  refine h.meets_depth ?_
  rw [meets_fit]
  intro hfits
  refine h.meets_emit rfl (Int.add_zero _) fun _ h => ?_
  refine h.meets_jump rfl (h.label (.head _)) (Int.add_zero _) fun _ h => ?_
  refine hcall.run h hplaced fun bodyOps _ _ h => ?_
  refine h.meets_popTo (by dsimp only; omega) fun hpop _ h => ?_
  refine h.meets_emit rfl (Int.add_zero _) fun _ h => ?_
  refine h.meets_setDepth fun _ h => ?_
  refine h.meets_mark fun _ h => ?_
  refine ⟨_, h.finish ?_⟩
  rintro Γ ⟨⟨⟨rfl, -⟩, hbody⟩, hafter⟩
  exact ⟨after, bodyOps, rfl, hfits, hbody, hpop, hafter, rfl⟩

theorem meets_engineArgs {params : List EngineParam}
    (hargs : ∀ e ∈ args, ∀ type, c.analysis.typeOf e = some type →
      Compiles c f visible (.expr e) (c.analysis.sizeOf type) (expr c f e))
    (hsizes : ∀ type, IsOperand (c.analysis.sizeOf type))
    (htyped : ∀ e ∈ args, ∃ type, c.analysis.typeOf e = some type)
    (htypes : ArgsOk c.analysis args (params.map EngineParam.type)) (hok : s.Ok c.analysis E)
    (hplaced : Placed c visible s.locals) : Ends Overflows (engineArgs c f params args) s fun r s' =>
      r.2 = suppliedSize c.analysis args.length params ∧ ∃ E', Progress c E s [] [] r.1
        (fun Γ => ExprCode Γ f s.locals (.engineArgs params args) s.depth r.1 (s.depth + r.2)) E' s'
        s.locals (s.depth + r.2) := by
  induction args generalizing params with
  | nil =>
    have h := Progress.start hok
    simp only [engineArgs, ends_pure, Int.add_zero]
    exact ⟨by simp [suppliedSize], E, h.weaken fun Γ _ => .noEngineArgs⟩
  | cons arg args ih =>
    cases params with
    | nil => cases htypes
    | cons p params =>
      obtain ⟨harg, hrest⟩ := htypes
      obtain ⟨type, htype⟩ := htyped arg (.head _)
      have hvalue := hargs arg (.head _) type htype
      have ht : c.analysis.types.get? arg.id = some type := htype
      have hlater := ih (fun e he => hargs e (.tail _ he))
        (fun e he => htyped e (.tail _ he)) hrest
      rw [engineArgs]
      simp only [ends_bind, tail_cons, head?_cons]
      refine hlater.mono ?_
      rintro r s₁ ⟨hsize, E₁, h₁⟩
      have hplaced₁ : Placed c visible s₁.locals := by
        rw [h₁.locals_eq]
        exact hplaced
      by_cases haction : p.type = .action
      · simp only [haction, decide_true, if_true, ends_bind, ends_pure]
        refine (meets_storedAction hvalue (hsizes type).1 h₁.ok hplaced₁).mono ?_
        rintro ops s₂ ⟨E₂, h₂⟩
        rw [h₁.locals_eq, h₁.depth_eq] at h₂
        refine ⟨by simp [suppliedSize, haction, hsize], E₂, (h₁.append h₂).weaken ?_⟩
        rintro Γ ⟨hlaterCode, after, body, rfl, hfits, hbody, hpop, hafter, rfl⟩
        exact .action haction hlaterCode hfits hbody hpop hafter
      · rw [ArgOk, if_neg haction] at harg
        cases htype.symm.trans harg
        simp only [haction, decide_false, Bool.false_eq_true, if_false, ends_bind, ends_pure, typeOf,
          ht, orFault]
        refine (hvalue E₁ s₁ h₁.ok hplaced₁).mono ?_
        rintro ops s₂ ⟨E₂, h₂⟩
        rw [h₁.locals_eq, h₁.depth_eq, Int.add_assoc] at h₂
        refine ⟨?_, E₂, (h₁.append h₂).withCtx.weaken ?_⟩
        · simp [suppliedSize, haction, hsize]
          omega
        · rintro Γ ⟨rfl, hlaterCode, hvalueCode⟩
          rw [← Int.add_assoc] at hvalueCode ⊢
          exact .engineArg haction hlaterCode hvalueCode

theorem compiles_engineCall (hc : c.Ok) {info : EngineFunction}
    (hcall : c.analysis.calls.get? node.id = some (.engine info.ordinal))
    (hinfo : c.engine.functionAt? info.ordinal = some info)
    (hargs : ∀ e ∈ args, ∀ type, c.analysis.typeOf e = some type →
      Compiles c f visible (.expr e) (c.analysis.sizeOf type) (expr c f e))
    (htyped : ∀ e ∈ args, ∃ type, c.analysis.typeOf e = some type)
    (htypes : ArgsOk c.analysis args (info.params.map EngineParam.type)) :
    Compiles c f visible (.expr (.call node name args)) (c.analysis.sizeOf info.ret)
      (engineCall c info args.length (engineArgs c f info.params args)) := by
  intro E s hok hplaced
  simp only [engineCall, ends_bind, ends_pure]
  refine (meets_engineArgs hargs hc.isOperand htyped htypes hok hplaced).mono ?_
  rintro r s₁ ⟨hsize, E₁, h₁⟩
  have hd : s.depth + r.2 + (c.analysis.sizeOf info.ret - r.2) =
      s.depth + c.analysis.sizeOf info.ret := by
    omega
  have h := (Progress.start hok).append h₁
  refine h.meets_emitCall rfl hd fun _ h => ?_
  refine ⟨_, h.finish ?_⟩
  rintro Γ ⟨rfl, hpushed⟩
  rw [← hd, hsize]
  rw [hsize] at hpushed
  exact .engineCall hcall hinfo hpushed

/-! ## Expressions -/

theorem isSome_of_required (htrails : Trails (params.map fun p => p.default.isSome)) {argc : Nat}
    (hreq : (params.takeWhile fun p => p.default.isNone).length ≤ argc) :
    ∀ p ∈ params.drop argc, p.default.isSome = true := by
  induction params generalizing argc with
  | nil => simp
  | cons p params ih =>
    obtain ⟨hall, hrest⟩ := pairwise_cons.mp htrails
    cases hp : p.default with
    | none =>
      cases argc with
      | zero => simp [hp] at hreq
      | succ argc =>
        rw [drop_succ_cons]
        refine ih hrest ?_
        simpa [hp] using hreq
    | some v =>
      intro q hq
      rcases mem_cons.mp (mem_of_mem_drop hq) with rfl | hq
      · rw [hp]
        rfl
      · exact hall _ (List.mem_map_of_mem hq) (by simp [hp])

theorem slot_of_not_const (hc : c.Ok) (hvar : var ∈ visible ∨ var ∈ c.analysis.globals)
    (hinfo : c.analysis.vars[var]? = some info) (hconst : info.isConst = false) :
    ∀ locals, Placed c visible locals → ∃ slot, slotOf c locals var = some slot :=
  fun _ hplaced => (hc.slot hplaced hvar hinfo).2 hconst

theorem isConst_of_value (hc : c.Ok) (hinfo : c.analysis.vars[var]? = some info)
    (hvalue : info.value = none) : info.isConst = false := by
  rw [(hc.vars var info hinfo).isConst, hvalue]
  rfl

theorem PlaceOk.slot (hc : c.Ok) (h : PlaceOk c visible e part) (hvalue : c.analysis.valueOf e = none) :
    ∀ locals, Placed c visible locals → ∃ slot, slotOf c locals part.var = some slot := by
  obtain ⟨info, hinfo, hconst⟩ := h.known
  refine slot_of_not_const hc h.inScope hinfo (isConst_of_value hc hinfo ?_)
  by_contra hne
  have hsome := hconst (isSome_iff_ne_none.mpr hne)
  rw [hvalue] at hsome
  cases hsome

theorem slot_of_writable (hc : c.Ok) (h : PlaceOk c visible e part) (hw : Writable c.analysis e.root) :
    ∀ locals, Placed c visible locals → ∃ slot, slotOf c locals part.var = some slot := by
  obtain ⟨var, info, href, hinfo, hconst⟩ := hw
  cases h.root.symm.trans href
  exact slot_of_not_const hc h.inScope hinfo hconst

theorem place_of_target (hc : c.Ok) (h : Usable c.engine c.analysis visible target)
    (hident : target.root.isIdent = true) (hw : Writable c.analysis target.root) :
    ∃ part, placeOf c.analysis target = some part ∧ PlaceOk c visible target part := by
  obtain ⟨var, -, href, -⟩ := hw
  obtain ⟨part, hpart⟩ := placeOf_isSome hc h hident href
  exact ⟨part, hpart, placeOk_of_placeOf hc h hpart⟩

theorem compiles_unless_constant (hc : c.Ok) (h : Usable c.engine c.analysis visible e)
    (htype : c.analysis.typeOf e = some type) (hnone : c.analysis.consts.get? e.id = none →
      Compiles c f visible (.expr e) (c.analysis.sizeOf type) (expr c f e)) :
    Compiles c f visible (.expr e) (c.analysis.sizeOf type) (expr c f e) := by
  cases hv : c.analysis.consts.get? e.id with
  | none => exact hnone hv
  | some v =>
    cases htype.symm.trans (hc.value_type h hv)
    have hexpr : expr c f e = constant v := by
      rw [expr.eq_def, hv]
    rw [hexpr]
    exact compiles_constant hv

theorem binaryType?_logical (hop : op = .logAnd ∨ op = .logOr) {lhs rhs : Ty}
    (h : binaryType? op lhs rhs = some type) : lhs = .int ∧ rhs = .int ∧ type = .int := by
  rcases hop with rfl | rfl <;> cases lhs <;> cases rhs <;>
    simp_all [binaryType?, BinOp.isEquality, BinOp.isArithmetic, BinOp.isOrder]

theorem compiles_expr (hc : c.Ok) (h : Usable c.engine c.analysis visible e)
    (htype : c.analysis.typeOf e = some type) :
    Compiles c f visible (.expr e) (c.analysis.sizeOf type) (expr c f e) := by
  induction e using Expr.inductionOn generalizing type with
    refine compiles_unless_constant hc h htype fun hv => ?_
  | literal node value =>
    have hrule := h.rule htype
    rw [Analysis.valueOf, hv] at hrule
    cases hrule
  | ident node name =>
    have hrule := h.rule htype
    generalize hvalue : c.analysis.valueOf (.ident node name) = value at hrule
    cases hrule with
    | engineConstant => exact absurd (hv.symm.trans hvalue) (by simp)
    | @«variable» _ _ var info href hinfo =>
      have hconst := isConst_of_value hc hinfo (hvalue.symm.trans hv)
      have href' : c.analysis.refs.get? (Expr.ident node name).id = some var := href
      rw [expr, hv]
      simp only [varRef, href', varInfo, hinfo, orFault, pure_bind]
      exact compiles_load hc href hinfo (slot_of_not_const hc (h.ref href) hinfo hconst)
  | binary node op lhs rhs ihl ihr =>
    have hlhs := h.child (c := lhs) (by simp)
    have hrhs := h.child (c := rhs) (by simp)
    obtain ⟨value, hrule⟩ := h.exists_rule htype
    cases hrule with
    | binary hleft hright hresult =>
      rw [expr, hv]
      by_cases hop : op = .logAnd ∨ op = .logOr
      · obtain ⟨rfl, rfl, rfl⟩ := binaryType?_logical hop hresult
        simp only [Bool.or_eq_true, decide_eq_true_eq, hop, if_true]
        exact compiles_shortCircuit hop (ihl hlhs hleft) (ihr hrhs hright)
      · obtain ⟨hand, hor⟩ := not_or.mp hop
        simp only [hand, hor, decide_false, Bool.or_false, Bool.false_eq_true, if_false]
        exact compiles_binary hc hand hor hleft hright hresult
          (fun _ hplaced => hc.hasSlot hplaced hlhs hleft) (ihl hlhs hleft) (ihr hrhs hright)
  | unary node op operand ih =>
    obtain ⟨value, hrule⟩ := h.exists_rule htype
    cases hrule with
    | unary hoperand _ =>
      rw [expr, hv]
      exact compiles_unary hoperand (ih (h.child (by simp)) hoperand)
  | step node st order target _ =>
    obtain ⟨value, hrule⟩ := h.exists_rule htype
    cases hrule with
    | step hident hwritable _ =>
      obtain ⟨var, info, href, hinfo, hconst⟩ := hwritable
      have hinScope := (h.child (c := target) (by simp)).ref href
      rw [expr, hv]
      simp only [varRef, href, orFault, pure_bind]
      exact compiles_stepAndLoad href (slot_of_not_const hc hinScope hinfo hconst)
  | call node name args ih =>
    have hargs : ∀ e ∈ args, ∀ type, c.analysis.typeOf e = some type →
        Compiles c f visible (.expr e) (c.analysis.sizeOf type) (expr c f e) :=
      fun e he type hte => ih e he (h.child he) hte
    obtain ⟨value, hrule⟩ := h.exists_rule htype
    cases hrule with
    | userCall hcall hinfo hdef hreq htypes =>
      have hsig := hc.signatures _ _ hinfo
      have hparams : ∀ p ∈ FuncInfo.params _, p.type ≠ .action := fun p hp haction => by
        have hstorable := (hsig.params p hp).isStorable
        rw [haction] at hstorable
        cases hstorable
      have hdefaults : ∀ p ∈ (FuncInfo.params _).drop args.length,
          ∃ v, p.default = some v ∧ v.type = p.type := fun p hp => by
        obtain ⟨v, hv⟩ := isSome_iff_exists.mp (isSome_of_required hsig.trailing hreq p hp)
        exact ⟨v, hv, hsig.defaults p (mem_of_mem_drop hp) v hv⟩
      rw [expr, hv]
      simp only [hcall, hinfo, orFault, pure_bind]
      exact compiles_userCall hc hcall hinfo hdef (compiles_userArgs hargs htypes hparams hdefaults)
    | engineCall hcall hinfo htypes =>
      have hat := (hc.engine.functionAt? hinfo).1
      rw [expr, hv]
      simp only [hcall, hat, orFault, pure_bind]
      exact compiles_engineCall hc hcall hat hargs (fun e he => (h.child he).typeOf_isSome) htypes
  | assign node op target value _ ih =>
    have htarget := h.child (c := target) (by simp)
    have hvalueOk := h.child (c := value) (by simp)
    obtain ⟨known, hrule⟩ := h.exists_rule htype
    cases hrule with
    | assign hident hwritable ht hvalue =>
      obtain ⟨part, hpart, hplace⟩ := place_of_target hc htarget hident hwritable
      cases ht.symm.trans hplace.type
      intro E s hok hplaced
      rw [expr, hv]
      dsimp only
      rw [ends_bind]
      refine meets_place hc htarget ?_
      simp only [hpart, orFault, pure_bind]
      exact compiles_assign hpart (slot_of_writable hc hplace hwritable) (ih hvalueOk hvalue) E s hok hplaced
    | compound hident hwritable ht hvalue hresult =>
      obtain ⟨part, hpart, hplace⟩ := place_of_target hc htarget hident hwritable
      cases ht.symm.trans hplace.type
      intro E s hok hplaced
      rw [expr, hv]
      dsimp only
      rw [ends_bind]
      refine meets_place hc htarget ?_
      simp only [hpart, orFault, pure_bind]
      exact compiles_compound hc hpart (slot_of_writable hc hplace hwritable) hvalue hresult
        (fun _ hplaced => hc.hasSlot hplaced htarget ht) (ih hvalueOk hvalue) E s hok hplaced
  | field node base name ih =>
    have hrule := h.rule htype
    generalize hvalue : c.analysis.valueOf (.field node base name) = value at hrule
    cases hrule with
    | field hbase hfield =>
      have hbaseOk := h.child (c := base) (by simp)
      intro E s hok hplaced
      rw [expr, hv]
      simp only [ends_bind]
      refine meets_place hc h ?_
      cases hpart : placeOf c.analysis (.field node base name) with
      | some part =>
        have hplace := placeOk_of_placeOf hc h hpart
        cases htype.symm.trans hplace.type
        exact compiles_loadPart hc hpart (hplace.slot hc hv) E s hok hplaced
      | none =>
        have hb : c.analysis.types.get? base.id = some _ := hbase
        simp only [typeOf, hb, orFault, ends_bind, ends_pure]
        exact compiles_keepField hc hbase hfield (ih hbaseOk hbase) E s hok hplaced
  | conditional node cond yes no ihc ihy ihn =>
    obtain ⟨value, hrule⟩ := h.exists_rule htype
    cases hrule with
    | conditional hcond hyes hno =>
      rw [expr, hv]
      exact compiles_choice (ihc (h.child (by simp)) hcond)
        (ihy (h.child (by simp)) hyes)
        (ihn (h.child (by simp)) hno)

end Gen
end Nwscript
