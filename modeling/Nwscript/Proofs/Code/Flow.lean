import Nwscript.Proofs.Code.Routine

/-! # The depth along the lines of code

Every line changes the depth by its effect. The relation `Flows` follows the depth from line to line; a
jump leads to a label that is reached at the same depth, and what stands behind a jump may start at any
depth. -/

namespace Nwscript

open Gen

variable {i : Instr} {label : Label} {offset depth : Int} {slot : Slot}

/-! ## Flow -/

/-- The effects of lines, given those of calls. The numbers of arguments of calls of the engine are such
as `count` allows. -/
inductive LineEffect (c : GenContext) (calls : Label → Int → Prop) (count : Nat → Prop) :
    Op → Int → Prop where
  | own {op effect} : op.effect? = some effect → LineEffect c calls count op effect
  | call {label effect} :
      calls label effect → LineEffect c calls count (.jump .call label) effect
  /-- The engine takes the arguments that were supplied, actions apart, and leaves its result. -/
  | action {ordinal n info} :
      c.engine.functionAt? ordinal = some info → count n →
      LineEffect c calls count (.instr (.action ordinal n.toUInt8))
        (c.analysis.sizeOf info.ret - suppliedSize c.analysis n info.params)

/-- The depth before and behind lines, where labels are reached at given depths. -/
inductive Flows (effect : Op → Int → Prop) (reached : Label → Option Int) : Int → List Op → Int → Prop where
  | nil {d} : Flows effect reached d [] d
  | instr {i e d d' ops} :
      i ≠ .ret → effect (.instr i) e → Flows effect reached (d + e) ops d' →
      Flows effect reached d (.instr i :: ops) d'
  | call {label e d d' ops} :
      effect (.jump .call label) e → Flows effect reached (d + e) ops d' →
      Flows effect reached d (.jump .call label :: ops) d'
  | branch {kind label d d' ops} :
      kind = .ifZero ∨ kind = .ifNonzero → reached label = some (d + -cellSize) →
      Flows effect reached (d + -cellSize) ops d' → Flows effect reached d (.jump kind label :: ops) d'
  | jump {label d d₁ d' ops} :
      reached label = some d → Flows effect reached d₁ ops d' →
      Flows effect reached d (.jump .always label :: ops) d'
  | mark {label d d' ops} :
      reached label = some d → Flows effect reached d ops d' →
      Flows effect reached d (.mark label :: ops) d'
  /-- An action starts and ends at the depth at which its state is stored. -/
  | stored {globals frame after d d' body ops} :
      reached after = some d → effect (.instr (.storeState globals frame)) 0 →
      Flows effect reached d body d → Flows effect reached d ops d' →
      Flows effect reached d (.instr (.storeState globals frame) :: .jump .always after ::
        (body ++ (.instr .ret :: .mark after :: ops))) d'

namespace Flows

variable {effect : Op → Int → Prop} {reached : Label → Option Int} {d d₁ d' e : Int} {ops ops' : List Op}

theorem append (h : Flows effect reached d ops d₁) (h' : Flows effect reached d₁ ops' d') :
    Flows effect reached d (ops ++ ops') d' := by
  induction h with
  | nil => exact h'
  | instr hi he _ ih => exact .instr hi he (ih h')
  | call he _ ih => exact .call he (ih h')
  | branch hkind hl _ ih => exact .branch hkind hl (ih h')
  | jump hl _ ih => exact .jump hl (ih h')
  | mark hl _ ih => exact .mark hl (ih h')
  | stored hl he hbody _ _ ih =>
    simp only [List.cons_append, List.append_assoc]
    exact .stored hl he hbody (ih h')

theorem cast (h : Flows effect reached d ops d₁) (heq : d₁ = d') : Flows effect reached d ops d' :=
  heq ▸ h

theorem oneInstr (hi : i ≠ .ret) (he : effect (.instr i) e) (hd : d + e = d') :
    Flows effect reached d [.instr i] d' := .instr hi he (hd ▸ .nil)

theorem oneJump (hl : reached label = some d) :
    Flows effect reached d [.jump .always label] d' := .jump hl .nil

theorem oneBranch {kind : JumpKind} (hkind : kind = .ifZero ∨ kind = .ifNonzero)
    (hl : reached label = some d) : Flows effect reached (d + cellSize) [.jump kind label] d := by
  have hd : d + cellSize + -cellSize = d := by omega
  exact .branch hkind (hd.symm ▸ hl) (hd.symm ▸ .nil)

theorem oneMark (hl : reached label = some d) : Flows effect reached d [.mark label] d := .mark hl .nil

end Flows

/-! ## Lines -/

section Lines

variable {c : GenContext} {calls : Label → Int → Prop} {count : Nat → Prop} {reached : Label → Option Int} {d d' : Int}

theorem flows_own {e : Int} (hi : i ≠ .ret) (he : i.effect? = some e) (hd : d + e = d') :
    Flows (LineEffect c calls count) reached d [.instr i] d' :=
  .oneInstr hi (.own he) hd

theorem flows_reserveOps (cells : List UInt8) :
    Flows (LineEffect c calls count) reached d (reserveOps cells) (d + cellSize * cells.length) := by
  induction cells generalizing d with
  | nil => simpa [reserveOps] using Flows.nil
  | cons type cells ih =>
    have hone : Flows (LineEffect c calls count) reached d [.instr (.reserve type)] (d + cellSize) :=
      flows_own (by simp) rfl rfl
    refine (hone.append ih).cast ?_
    simp only [List.length_cons, cellSize]
    omega

theorem flows_constantOps (v : Value) :
    Flows (LineEffect c calls count) reached d (constantOps v) (d + c.analysis.sizeOf v.type) := by
  cases v with
  | vector x y z =>
    have hone (x : Single) (d : Int) :
        Flows (LineEffect c calls count) reached d [.instr (.const (.float x))] (d + cellSize) :=
      flows_own (by simp) rfl rfl
    refine (((hone x d).append (hone y _)).append (hone z _)).cast ?_
    show d + cellSize + cellSize + cellSize = d + 3 * cellSize
    omega
  | _ => exact flows_own (by simp) rfl rfl

theorem flows_popOps (h : PopFits d d') :
    Flows (LineEffect c calls count) reached d (popOps d d') d' := by
  unfold popOps
  split
  · next heq => exact heq ▸ .nil
  · next hne =>
    refine flows_own (by simp) (congrArg some (h hne).1.toInt_ofInt) ?_
    omega

theorem flows_moveSp (h : Fits offset) (hd : d + offset = d') :
    Flows (LineEffect c calls count) reached d [.instr (.moveSp (.ofInt offset))] d' :=
  flows_own (by simp) (congrArg some h.toInt_ofInt) hd

theorem flows_dupOp : Flows (LineEffect c calls count) reached d [dupOp] (d + cellSize) :=
  flows_own (by simp) rfl rfl

theorem flows_loadOp {size : Int} (h : IsOperand size) :
    Flows (LineEffect c calls count) reached d [loadOp c slot depth offset size] (d + size) :=
  flows_own (by simp) (congrArg some h.toNat_ofInt) rfl

theorem flows_storeOp {size : Int} :
    Flows (LineEffect c calls count) reached d [storeOp c slot depth offset size] d :=
  flows_own (by simp) rfl (Int.add_zero _)

theorem flows_stepOp {s : Step} :
    Flows (LineEffect c calls count) reached d [stepOp c s slot depth] d :=
  flows_own (by simp) rfl (Int.add_zero _)

end Lines

/-! ## Expressions -/

def ExprPiece.parts : ExprPiece → List Expr
  | .expr e => e.parts
  | .userArgs _ args => Expr.partsOf args
  | .engineArgs _ args => Expr.partsOf args

def ArgCounts (count : Nat → Prop) (es : List Expr) : Prop :=
  ∀ node name args, Expr.call node name args ∈ es → count args.length

theorem ArgCounts.subset {count : Nat → Prop} {es es' : List Expr} (h : ArgCounts count es)
    (hsub : es' ⊆ es) : ArgCounts count es' :=
  fun node name args hmem => h node name args (hsub hmem)

theorem ArgCounts.child {count : Nat → Prop} {e child : Expr} (h : ArgCounts count e.parts)
    (hchild : child ∈ e.children) : ArgCounts count child.parts :=
  h.subset fun _ hp => Expr.mem_parts_iff.mpr (.inr ⟨child, hchild, hp⟩)

theorem ne_ret_of_binaryInstr? {a : Analysis} {op : BinOp} {lhs rhs : Ty}
    (h : binaryInstr? a op lhs rhs = some i) : i ≠ .ret := by
  unfold binaryInstr? at h
  split at h
  · cases h
    simp
  · obtain ⟨pair, -, rfl⟩ := Option.map_eq_some_iff.mp h
    simp

def CodeEnv.Calls (Γ : CodeEnv) (label : Label) (effect : Int) : Prop :=
  ∃ func info, Γ.func func = some label ∧ Γ.ctx.analysis.functions[func]? = some info ∧
    effect = -paramsSize Γ.ctx.analysis info

/-! ## Statements -/

def StmtPiece.exprs : StmtPiece → List Expr
  | .stmt s => s.exprs
  | .nested s => s.exprs
  | .stmts ss => Stmt.exprsOf ss
  | .vars ds => ds.flatMap fun d => d.init.toList
  | .switchBody _ ss => Stmt.exprsOf ss

end Nwscript
