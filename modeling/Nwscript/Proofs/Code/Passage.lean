import Nwscript.Proofs.Code.Flow

/-! # The lines of a tree

One walk over the shape of code shows two things of the lines of each construct. They lead from its depth
before to its depth behind, and what stands before a call, a return or a string shows where it comes
from. -/

open List Option

namespace Nwscript

open Gen

variable {ss : List Stmt} {labels : List (Option Label)} {other : Option Label}
  {targets : List JumpTarget} {i : Instr} {offset depth : Int} {slot : Slot} {e : Option Expr}

/-! ## Labels of a switch -/

section Switches

variable {Γ : CodeEnv} {f : Frame} {m m' : StackMap} {ops : List Op}

theorem DispatchCode.aligned {pair : UInt8} {d : Int} (h : DispatchCode Γ pair d ss ops labels other) :
    labels.length = ss.length ∧ ∀ label, other = some label → some label ∈ labels := by
  induction h with
  | nil => simp
  | caseLabel _ _ _ _ ih => simp; grind
  | @defaultLabel _ _ _ _ _ other _ _ ih => cases other <;> simp <;> grind
  | stmt _ _ ih => simp; grind

theorem StmtCode.marked
    (h : StmtCode Γ f targets (.switchBody labels ss) m ops m') (hlen : labels.length = ss.length) :
    ∀ label, some label ∈ labels → label ∈ marks ops := by
  induction ss generalizing labels m ops with
  | nil => simp [length_eq_zero_iff.mp hlen]
  | cons s ss ih =>
    cases h with
    | label _ _ hrest =>
      have hmarked := ih hrest (by simpa using hlen)
      simp
      grind
    | case _ _ hrest =>
      have hmarked := ih hrest (by simpa using hlen)
      simp
      grind

end Switches

/-! ## Lines before lines -/

/-- The lines before each line end with lines that go with it. -/
def Sites (site : List Op → Op → Prop) (ops : List Op) : Prop :=
  ∀ before op after, ops = before ++ op :: after → ∃ outer own, before = outer ++ own ∧ site own op

section Sites

variable {site : List Op → Op → Prop} {ops ops' : List Op} {op : Op}

theorem sites_nil : Sites site [] := by
  intro before op after h
  simp at h

theorem Sites.append (h : Sites site ops) (h' : Sites site ops') : Sites site (ops ++ ops') := by
  intro before op after heq
  rcases append_eq_append_iff.mp heq with ⟨more, hbefore, hops'⟩ | ⟨more, hops, hrest⟩
  · obtain ⟨outer, own, rfl, hsite⟩ := h' more op after hops'
    exact ⟨ops ++ outer, own, by rw [hbefore, append_assoc], hsite⟩
  · cases more with
    | nil =>
      obtain ⟨outer, own, hnil, hsite⟩ := h' [] op after (by simpa using hrest.symm)
      obtain ⟨rfl, rfl⟩ := append_eq_nil_iff.mp hnil.symm
      exact ⟨before, [], (append_nil _).symm, hsite⟩
    | cons first more =>
      obtain ⟨rfl, -⟩ := List.cons.inj hrest
      exact h before op more hops

theorem Sites.concat (h : Sites site ops) (hop : site ops op) : Sites site (ops ++ [op]) := by
  intro before op' after heq
  rcases append_eq_append_iff.mp heq with ⟨more, hbefore, hops'⟩ | ⟨more, hops, hrest⟩
  · cases more with
    | nil =>
      obtain ⟨rfl, -⟩ := List.cons.inj hops'
      exact ⟨[], ops, by simpa using hbefore, hop⟩
    | cons first more => simp at hops'
  · cases more with
    | nil =>
      obtain ⟨rfl, -⟩ := List.cons.inj hrest
      exact ⟨[], ops, by simpa using hops.symm, hop⟩
    | cons first more =>
      obtain ⟨rfl, -⟩ := List.cons.inj hrest
      exact h before op' more hops

theorem Sites.mono {site' : List Op → Op → Prop} (h : Sites site ops)
    (himp : ∀ own op, site own op → site' own op) : Sites site' ops := by
  intro before op after heq
  obtain ⟨outer, own, hbefore, hsite⟩ := h before op after heq
  exact ⟨outer, own, hbefore, himp own op hsite⟩

theorem sites_of_forall (h : ∀ op ∈ ops, site [] op) : Sites site ops := by
  intro before op after heq
  exact ⟨before, [], (append_nil _).symm, h op (by simp [heq])⟩

theorem sites_singleton (h : site [] op) : Sites site [op] := sites_of_forall (by simpa using h)

end Sites

/-! ## Calls and returns -/

def CallSite (Γ : CodeEnv) (f : Frame) (exprs : List Expr) (own : List Op) (label : Label) : Prop :=
  ∃ locals node name args func info d top pushed,
    .call node name args ∈ exprs ∧ Γ.ctx.analysis.calls.get? node.id = some (.user func) ∧
    Γ.ctx.analysis.functions[func]? = some info ∧ Γ.func func = some label ∧
    own = reserveOps (resultCells Γ.ctx.analysis info) ++ pushed ∧
    ExprCode Γ f locals (.userArgs info.params args)
      (d + cellSize * (resultCells Γ.ctx.analysis info).length) pushed top

/-- The lines of a return. If there is a slot for the result, the value on top of the stack is copied to
it, and then all above the frame is popped. -/
def ReturnSite (Γ : CodeEnv) (f : Frame) (own : List Op) : Prop :=
  ∀ bottom size, f.result = some (bottom, size) → ∃ locals e d value,
    ExprCode Γ f locals (.expr e) d value (d + size) ∧ Fits (bottom - (d + size)) ∧
    own = value ++ [Op.instr (.copyDown .stack (.ofInt (bottom - (d + size))) (.ofInt size))] ++
      popOps (d + size) 0

def Analysis.IsDefault (a : Analysis) (v : Value) : Prop :=
  ∃ f ∈ a.functions, ∃ p ∈ f.params, p.default = some v

/-- A string that is pushed is the value of an expression, or the default of a parameter. -/
def LineSite (Γ : CodeEnv) (f : Frame) (exprs : List Expr) (own : List Op) : Op → Prop
  | .jump .call label => CallSite Γ f exprs own label
  | .jump .always label => label = f.exit → ReturnSite Γ f own
  | .instr (.const (.string bytes)) => (∃ e, Γ.ctx.analysis.valueOf e = some (.string bytes)) ∨
      Γ.ctx.analysis.IsDefault (.string bytes)
  | _ => True

section Lines

variable {Γ : CodeEnv} {f : Frame} {exprs : List Expr}

theorem ne_const_of_binaryInstr? {a : Analysis} {op : BinOp} {lhs rhs : Ty}
    (h : binaryInstr? a op lhs rhs = some i) (c : Constant) : i ≠ .const c := by
  rintro rfl
  unfold binaryInstr? at h
  split at h
  · cases h
  · obtain ⟨pair, -, heq⟩ := map_eq_some_iff.mp h
    cases heq

theorem lineSite_instr (h : ∀ c, i ≠ .const c) : Sites (LineSite Γ f exprs) [.instr i] := by
  refine sites_singleton ?_
  cases i with
  | const c => exact absurd rfl (h c)
  | _ => trivial

theorem lineSite_reserveOps {cells : List UInt8} : Sites (LineSite Γ f exprs) (reserveOps cells) := by
  refine sites_of_forall fun op hop => ?_
  obtain ⟨type, -, rfl⟩ := List.mem_map.mp hop
  trivial

theorem lineSite_mark {label : Label} : Sites (LineSite Γ f exprs) [.mark label] :=
  sites_singleton trivial

/-- The lines lead from a depth to another, and come from the expressions. -/
structure Passage (Γ : CodeEnv) (f : Frame) (exprs : List Expr) (count : Nat → Prop) (d : Int)
    (ops : List Op) (d' : Int) : Prop where
  flows : Flows (LineEffect Γ.ctx Γ.Calls count) Γ.depth d ops d'
  sites : Sites (LineSite Γ f exprs) ops

variable {count : Nat → Prop} {d d₁ d' : Int} {ops ops' : List Op} {label : Label}

/-- The lines are such a passage unless the end of the function is marked in them. -/
def Passes (Γ : CodeEnv) (f : Frame) (exprs : List Expr) (count : Nat → Prop) (d : Int)
    (ops : List Op) (d' : Int) : Prop := f.exit ∉ marks ops → Passage Γ f exprs count d ops d'

theorem Passes.append (h : Passes Γ f exprs count d ops d₁) (h' : Passes Γ f exprs count d₁ ops' d') :
    Passes Γ f exprs count d (ops ++ ops') d' := by
  intro hexit
  rw [marks_append, mem_append, not_or] at hexit
  have hfirst := h hexit.1
  have hrest := h' hexit.2
  exact ⟨hfirst.flows.append hrest.flows, hfirst.sites.append hrest.sites⟩

/-- What is to be shown may use that the end of the function is not marked. -/
theorem Passes.under (h : f.exit ∉ marks ops → Passes Γ f exprs count d ops d') :
    Passes Γ f exprs count d ops d' := fun hexit => h hexit hexit

theorem Passes.cast (h : Passes Γ f exprs count d ops d₁) (heq : d₁ = d') :
    Passes Γ f exprs count d ops d' := heq ▸ h

theorem passage_nil : Passes Γ f exprs count d [] d := fun _ => ⟨.nil, sites_nil⟩

theorem passage_own {e : Int} (hi : i ≠ .ret) (hconst : ∀ c, i ≠ .const c)
    (he : i.effect? = some e) (hd : d + e = d') : Passes Γ f exprs count d [.instr i] d' :=
  fun _ => ⟨flows_own hi he hd, lineSite_instr hconst⟩

theorem passage_reserveOps (cells : List UInt8) :
    Passes Γ f exprs count d (reserveOps cells) (d + cellSize * cells.length) :=
  fun _ => ⟨flows_reserveOps cells, lineSite_reserveOps⟩

theorem passage_constantOps {v : Value}
    (h : (∃ e, Γ.ctx.analysis.valueOf e = some v) ∨ Γ.ctx.analysis.IsDefault v) :
    Passes Γ f exprs count d (constantOps v) (d + Γ.ctx.analysis.sizeOf v.type) := by
  refine fun _ => ⟨flows_constantOps v, sites_of_forall fun op hop => ?_⟩
  cases v with
  | string bytes =>
    obtain rfl := mem_singleton.mp hop
    exact h
  | vector x y z =>
    simp only [constantOps, mem_cons, not_mem_nil, or_false] at hop
    rcases hop with rfl | rfl | rfl <;> trivial
  | _ =>
    obtain rfl := mem_singleton.mp hop
    trivial

theorem passage_popOps (h : PopFits d d') : Passes Γ f exprs count d (popOps d d') d' := by
  refine fun _ => ⟨flows_popOps h, ?_⟩
  unfold popOps
  split
  · exact sites_nil
  · exact lineSite_instr (by simp)

theorem passage_moveSp (h : Fits offset) (hd : d + offset = d') :
    Passes Γ f exprs count d [.instr (.moveSp (.ofInt offset))] d' :=
  fun _ => ⟨flows_moveSp h hd, lineSite_instr (by simp)⟩

theorem passage_dupOp : Passes Γ f exprs count d [dupOp] (d + cellSize) :=
  fun _ => ⟨flows_dupOp, lineSite_instr (by simp)⟩

theorem passage_loadOp {size : Int} (h : IsOperand size) :
    Passes Γ f exprs count d [loadOp Γ.ctx slot depth offset size] (d + size) :=
  fun _ => ⟨flows_loadOp h, lineSite_instr (by simp)⟩

theorem passage_storeOp {size : Int} :
    Passes Γ f exprs count d [storeOp Γ.ctx slot depth offset size] d :=
  fun _ => ⟨flows_storeOp, lineSite_instr (by simp)⟩

theorem passage_stepOp {s : Step} :
    Passes Γ f exprs count d [stepOp Γ.ctx s slot depth] d :=
  fun _ => ⟨flows_stepOp, lineSite_instr (by simp)⟩

theorem passage_branch {kind : JumpKind} (hkind : kind = .ifZero ∨ kind = .ifNonzero)
    (hl : Γ.depth label = some d) : Passes Γ f exprs count (d + cellSize) [.jump kind label] d := by
  refine fun _ => ⟨.oneBranch hkind hl, sites_singleton ?_⟩
  rcases hkind with rfl | rfl <;> trivial

theorem passage_jump (hl : Γ.depth label = some d) (h : label ≠ f.exit) :
    Passes Γ f exprs count d [.jump .always label] d' :=
  fun _ => ⟨.oneJump hl, sites_singleton fun heq => absurd heq h⟩

theorem passage_mark (hl : Γ.depth label = some d) : Passes Γ f exprs count d [.mark label] d :=
  fun _ => ⟨.oneMark hl, lineSite_mark⟩

end Lines

/-! ## Expressions -/

def ExprPiece.Declared (a : Analysis) : ExprPiece → Prop
  | .userArgs params _ => ∀ p ∈ params, ∀ v, p.default = some v → a.IsDefault v
  | _ => True

section Trees

variable {Γ : CodeEnv} {f : Frame} {exprs : List Expr} {count : Nat → Prop}
  (hc : Γ.ctx.Ok) (hcount : ArgCounts count exprs)

include hc hcount

theorem ExprCode.passage {locals : List (VarId × Int)} {piece : ExprPiece} {d d' : Int} {ops : List Op}
    (h : ExprCode Γ f locals piece d ops d') (hexprs : piece.parts ⊆ exprs)
    (hpiece : piece.Declared Γ.ctx.analysis) :
    Passes Γ f exprs count d ops d' := by
  have hchild {e child : Expr} (hsub : e.parts ⊆ exprs) (hmem : child ∈ e.children) :
      child.parts ⊆ exprs :=
    fun p hp => hsub (Expr.mem_parts_iff.mpr (.inr ⟨child, hmem, hp⟩))
  induction h with
  | constant hv => exact passage_constantOps (.inl ⟨_, hv⟩)
  | loadVar _ _ _ => exact passage_loadOp (hc.isOperand _)
  | @shortCircuit node op lhs rhs d left right onward join hop _ _ honward hjoin ihl ihr =>
    refine .under fun hexit => ?_
    have hl := ihl (hchild hexprs (by simp)) trivial
    have hr := ihr (hchild hexprs (by simp)) trivial
    have hkind : onwardJump op = .ifZero ∨ onwardJump op = .ifNonzero := by
      unfold onwardJump
      split <;> simp
    have hcombine : d + cellSize + cellSize + -cellSize = d + cellSize := by omega
    have heffect : (Instr.binary (Opcode.ofBinOp op) PairByte.intInt).effect? = some (-cellSize) := rfl
    exact (((((((hl.append passage_dupOp).append (passage_branch hkind honward)).append passage_dupOp).append
      (passage_jump hjoin (ne_of_mem_of_not_mem (by simp) hexit))).append
      (passage_mark honward)).append hr).append (passage_mark hjoin)).append
      (passage_own (by simp) (by simp) heffect hcombine)
  | binary _ _ _ _ _ _ hi heffect ihl ihr =>
    have hl := ihl (hchild hexprs (by simp)) trivial
    have hr := ihr (hchild hexprs (by simp)) trivial
    exact (hl.append hr).append
      (passage_own (ne_ret_of_binaryInstr? hi) (ne_const_of_binaryInstr? hi) heffect (by omega))
  | @unary node op operand d d' value type _ _ ih =>
    have hv := ih (hchild hexprs (by simp)) trivial
    refine hv.append (passage_own ?_ (fun c => ?_) (effect?_unaryInstr ..) (Int.add_zero _))
    · cases op <;> simp [unaryInstr]
    · cases op <;> simp [unaryInstr]
  | stepFirst _ _ => exact passage_stepOp.append (passage_loadOp ⟨by decide, by decide⟩)
  | valueFirst _ _ _ => exact (passage_loadOp ⟨by decide, by decide⟩).append passage_stepOp
  | @userCall node name args func info label d d₁ pushed hcall hinfo hlabel hcode ih =>
    have hp := ih (fun p hp => hexprs (.tail _ hp))
      (fun p hp v hv => ⟨_, Array.mem_of_getElem? hinfo, p, hp, hv⟩)
    intro hexit
    have hpushed := (passage_reserveOps _).append hp (by simpa using hexit)
    exact ⟨hpushed.flows.append (.call (.call ⟨func, info, hlabel, hinfo, rfl⟩) .nil),
      hpushed.sites.concat ⟨locals, node, name, args, func, info, d, d₁, pushed,
        hexprs (.head _), hcall, hinfo, hlabel, rfl, hcode⟩⟩
  | @engineCall node name args info d d₁ pushed _ hinfo _ ih =>
    have hp := ih (fun p hp => hexprs (.tail _ hp)) trivial
    have hlen := hcount node name args (hexprs (.head _))
    exact hp.append fun _ => ⟨.oneInstr (by simp) (.action hinfo hlen) rfl, lineSite_instr (by simp)⟩
  | assign _ _ _ ih =>
    have hnew := ih (hchild hexprs (by simp)) trivial
    exact hnew.append passage_storeOp
  | compound _ _ _ _ hi heffect _ ih =>
    have hr := ih (hchild hexprs (by simp)) trivial
    exact (((passage_loadOp (hc.isOperand _)).append hr).append (passage_own (ne_ret_of_binaryInstr? hi)
      (ne_const_of_binaryInstr? hi) heffect (by omega))).append passage_storeOp
  | fieldOfVariable _ _ => exact passage_loadOp (hc.isOperand _)
  | fieldOfValue _ _ _ ih =>
    have hv := ih (hchild hexprs (by simp)) trivial
    refine hv.append (passage_own (by simp) (by simp) ?_ rfl)
    rw [Instr.effect?_destruct, (hc.isOperand _).toNat_ofInt, (hc.isOperand _).toNat_ofInt]
  | conditional _ _ _ hother hjoin ihc ihy ihn =>
    refine .under fun hexit => ?_
    have ht := ihc (hchild hexprs (by simp)) trivial
    have hy := ihy (hchild hexprs (by simp)) trivial
    have hn := ihn (hchild hexprs (by simp)) trivial
    exact (((((ht.append (passage_branch (.inl rfl) hother)).append hy).append
      (passage_jump hjoin (ne_of_mem_of_not_mem (by simp) hexit))).append
      (passage_mark hother)).append hn).append (passage_mark hjoin)
  | noArgs => exact passage_nil
  | default hd htype _ ih =>
    have hl := ih hexprs (fun p hp => hpiece p (.tail _ hp))
    exact hl.append (htype ▸ passage_constantOps (.inr (hpiece _ (.head _) _ hd)))
  | arg _ _ ihl iha =>
    have hl := ihl (fun p hp => hexprs (by simp_all [ExprPiece.parts, Expr.partsOf]))
      (fun p hp => hpiece p (.tail _ hp))
    have ha := iha (fun p hp => hexprs (by simp_all [ExprPiece.parts, Expr.partsOf])) trivial
    exact hl.append ha
  | noEngineArgs => exact passage_nil
  | engineArg _ _ _ ihl iha =>
    have hl := ihl (fun p hp => hexprs (by simp_all [ExprPiece.parts, Expr.partsOf])) trivial
    have ha := iha (fun p hp => hexprs (by simp_all [ExprPiece.parts, Expr.partsOf])) trivial
    exact hl.append ha
  | @action _ _ _ _ _ _ _ _ _ after _ _ _ _ hpop hafter ihl iha =>
    have hl := ihl (fun p hp => hexprs (by simp_all [ExprPiece.parts, Expr.partsOf])) trivial
    have ha := iha (fun p hp => hexprs (by simp_all [ExprPiece.parts, Expr.partsOf])) trivial
    refine hl.append fun hexit => ?_
    have hbody := ha.append (passage_popOps hpop) fun h => hexit (by simp_all [saveOp])
    refine ⟨?_, ?_⟩
    · simp only [append_assoc, cons_append, nil_append]
      rw [← append_assoc]
      exact .stored hafter (.own rfl) hbody.flows .nil
    · have hjump : Passes Γ f exprs count _ _ 0 :=
        passage_jump hafter (ne_of_mem_of_not_mem (by simp [saveOp]) hexit)
      rw [append_assoc _ _ (popOps _ _)]
      exact (((((lineSite_instr (by simp)).append (hjump (by simp)).sites).append hbody.sites).append
        (lineSite_instr (by simp))).append lineSite_mark)

/-! ## Statements -/

section Statements

variable {m m' : StackMap} {ops : List Op}

theorem DiscardCode.passage {e : Expr} (h : DiscardCode Γ f m e ops) (hexprs : e.parts ⊆ exprs) :
    Passes Γ f exprs count m.depth ops m.depth := by
  obtain ⟨value, d, hvalue, hpop, rfl⟩ := h
  exact (hvalue.passage hc hcount hexprs trivial).append (passage_popOps hpop)

theorem OptionalCode.passage (h : OptionalCode Γ f m e ops)
    (hexprs : ∀ e' ∈ e.toList, e'.parts ⊆ exprs) :
    Passes Γ f exprs count m.depth ops m.depth := by
  cases e with
  | some e => exact DiscardCode.passage hc hcount h (hexprs e (by simp))
  | none =>
    obtain rfl : ops = [] := h
    exact passage_nil

theorem ExitCode.passage {leave : Label} (h : ExitCode Γ f m leave e ops)
    (hleave : Γ.depth leave = some m.depth) (hexprs : ∀ e' ∈ e.toList, e'.parts ⊆ exprs) :
    Passes Γ f exprs count m.depth ops m.depth := by
  cases e with
  | some e =>
    obtain ⟨test, htest, rfl⟩ := h
    exact (htest.passage hc hcount (hexprs e (by simp)) trivial).append
      (passage_branch (.inl rfl) hleave)
  | none =>
    obtain rfl : ops = [] := h
    exact passage_nil

theorem InitCode.passage {locals : List (VarId × Int)} {d : Int} {type : Ty}
    (h : InitCode Γ f locals d (Γ.ctx.analysis.sizeOf type) e ops)
    (hexprs : ∀ e' ∈ e.toList, e'.parts ⊆ exprs) :
    Passes Γ f exprs count d ops d := by
  cases e with
  | some e =>
    obtain ⟨value, hvalue, rfl⟩ := h
    obtain ⟨hlo, hhi⟩ := hc.isOperand type
    have hv := hvalue.passage hc hcount (hexprs e (by simp)) trivial
    exact (hv.append (passage_own (by simp) (by simp) rfl (Int.add_zero _))).append
      (passage_moveSp ⟨by omega, by omega⟩ (by omega))
  | none =>
    obtain rfl : ops = [] := h
    exact passage_nil

omit hc hcount in
theorem DispatchCode.passage {type : Ty} {d : Int}
    (h : DispatchCode Γ (switchPair type) d ss ops labels other) :
    Passes Γ f exprs count d ops d := by
  induction h with
  | nil => exact passage_nil
  | @caseLabel pos e v label rest ops labels other hv hsize hlabel _ ih =>
    have hpush := @passage_constantOps Γ f exprs count (d + cellSize) v (.inl ⟨e, hv⟩)
    rw [hsize] at hpush
    exact (((passage_dupOp.append hpush).append
      (passage_own (by simp) (by simp) (effect?_switchPair type) (by omega))).append
      (passage_branch (.inr rfl) hlabel)).append ih
  | defaultLabel _ _ ih => exact ih
  | stmt _ _ ih => exact ih

omit hc hcount in
theorem StmtCode.depth_nested {st : Stmt}
    (h : StmtCode Γ f targets (.nested st) m ops m') : m'.depth = m.depth := by
  cases h
  rfl

omit hc hcount in
theorem default_mem_marks {pair : UInt8} {d : Int} {tests : List Op}
    (h : DispatchCode Γ pair d ss tests labels other)
    (hbody : StmtCode Γ f targets (.switchBody labels ss) m ops m') (leave : Label) :
    other.getD leave = leave ∨ other.getD leave ∈ marks ops := by
  obtain ⟨hlen, hother⟩ := DispatchCode.aligned h
  cases other with
  | none => exact .inl rfl
  | some label => exact .inr (hbody.marked hlen label (hother label rfl))

/-- The calls in a statement are among those of the expressions around it, and its jumps to the end of
the function are returns. -/
theorem StmtCode.passage {piece : StmtPiece}
    (h : StmtCode Γ f targets piece m ops m') (hexprs : ∀ e ∈ piece.exprs, e.parts ⊆ exprs)
    (htargets : ∀ t ∈ targets, t.leave ≠ f.exit ∧ t.again ≠ some f.exit) :
    Passes Γ f exprs count m.depth ops m'.depth := by
  have hcons {t : JumpTarget} {ts : List JumpTarget}
      (hts : ∀ t ∈ ts, t.leave ≠ f.exit ∧ t.again ≠ some f.exit) (ht : t.leave ≠ f.exit)
      (ht' : t.again ≠ some f.exit) : ∀ t' ∈ t :: ts, t'.leave ≠ f.exit ∧ t'.again ≠ some f.exit := by
    intro t' hmem
    rcases mem_cons.mp hmem with rfl | hmem
    · exact ⟨ht, ht'⟩
    · exact hts t' hmem
  induction h with
  | block _ hpop ih => exact (ih hexprs htargets).append (passage_popOps hpop)
  | nested _ hpop ih => exact (ih hexprs htargets).append (passage_popOps hpop)
  | var _ ih => exact ih hexprs htargets
  | expr hcode =>
    exact DiscardCode.passage hc hcount hcode (hexprs _ (by simp [StmtPiece.exprs, Stmt.exprs]))
  | ifThen htest hyes hother ih =>
    have ht := htest.passage hc hcount (hexprs _ (by simp [StmtPiece.exprs, Stmt.exprs])) trivial
    have hy := ih (fun e he => hexprs e (.tail _ he)) htargets
    rw [hyes.depth_nested] at hy ⊢
    exact ((ht.append (passage_branch (.inl rfl) hother)).append hy).append (passage_mark hother)
  | ifElse htest hyes hno hother hjoin ihy ihn =>
    refine .under fun hexit => ?_
    have ht := htest.passage hc hcount (hexprs _ (by simp [StmtPiece.exprs, Stmt.exprs])) trivial
    have hy := ihy (fun e he => hexprs e (by simp_all [StmtPiece.exprs, Stmt.exprs])) htargets
    have hn := ihn (fun e he => hexprs e (by simp_all [StmtPiece.exprs, Stmt.exprs])) htargets
    rw [hno.depth_nested, hyes.depth_nested] at hn
    rw [hyes.depth_nested] at hy
    rw [hno.depth_nested, hyes.depth_nested]
    exact (((((ht.append (passage_branch (.inl rfl) hother)).append hy).append
      (passage_jump hjoin (ne_of_mem_of_not_mem (by simp) hexit))).append
      (passage_mark hother)).append hn).append (passage_mark hjoin)
  | whileLoop htest hbody htop hleave ih =>
    refine .under fun hexit => ?_
    have ht := ExitCode.passage hc hcount htest hleave (fun e he => hexprs e (by
      simp_all [StmtPiece.exprs, Stmt.exprs]))
    have hb := ih (fun e he => hexprs e (.tail _ he))
      (hcons htargets (ne_of_mem_of_not_mem (by simp) hexit) fun heq => hexit (by simp_all))
    rw [hbody.depth_nested] at hb ⊢
    exact ((((passage_mark htop).append ht).append hb).append
      (passage_jump htop (ne_of_mem_of_not_mem (by simp) hexit))).append (passage_mark hleave)
  | doWhile hbody htest htop hnext hleave ih =>
    refine .under fun hexit => ?_
    have ht := htest.passage hc hcount (hexprs _ (by simp [StmtPiece.exprs, Stmt.exprs])) trivial
    have hb := ih (fun e he => hexprs e (mem_append_left _ he))
      (hcons htargets (ne_of_mem_of_not_mem (by simp) hexit) fun heq => hexit (by simp_all))
    rw [hbody.depth_nested] at hb ⊢
    exact (((((passage_mark htop).append hb).append (passage_mark hnext)).append ht).append
      (passage_branch (.inr rfl) htop)).append (passage_mark hleave)
  | forLoop hbefore htest hbody honward htop hnext hleave ih =>
    refine .under fun hexit => ?_
    have hfirst := OptionalCode.passage hc hcount hbefore (fun e he => hexprs e (by
      simp_all [StmtPiece.exprs, Stmt.exprs]))
    have ht := ExitCode.passage hc hcount htest hleave (fun e he => hexprs e (by
      simp_all [StmtPiece.exprs, Stmt.exprs]))
    have hb := ih (fun e he => hexprs e (by simp_all [StmtPiece.exprs, Stmt.exprs]))
      (hcons htargets (ne_of_mem_of_not_mem (by simp) hexit) fun heq => hexit (by simp_all))
    have ho := OptionalCode.passage hc hcount honward (fun e he => hexprs e (by
      simp_all [StmtPiece.exprs, Stmt.exprs]))
    rw [hbody.depth_nested] at hb ho ⊢
    exact ((((((hfirst.append (passage_mark htop)).append ht).append hb).append (passage_mark hnext)).append
      ho).append (passage_jump htop (ne_of_mem_of_not_mem (by simp) hexit))).append (passage_mark hleave)
  | @switch _ _ _ _ _ _ _ _ _ _ _ other leave _ hvalue hdispatch hother hbody hpop hleave ih =>
    refine .under fun hexit => ?_
    have hdefault : other.getD leave ≠ f.exit := by
      rcases default_mem_marks hdispatch hbody leave with heq | hmem
      · rw [heq]
        exact ne_of_mem_of_not_mem (by simp) hexit
      · exact ne_of_mem_of_not_mem (by simp [hmem]) hexit
    have hv := hvalue.passage hc hcount (hexprs _ (by simp [StmtPiece.exprs, Stmt.exprs])) trivial
    have hb := ih (fun e he => hexprs e (.tail _ he))
      (hcons htargets (ne_of_mem_of_not_mem (by simp) hexit) (by simp))
    exact (((((hv.append (DispatchCode.passage hdispatch)).append (passage_jump hother hdefault)).append
      hb).append (passage_popOps hpop)).append (passage_mark hleave)).append
      (passage_moveSp ⟨by decide, by decide⟩ (Int.add_neg_cancel_right _ _))
  | @returnValue _ _ e m bottom size ops hresult hvalue hfits hpop hreturn =>
    have hv := hvalue.passage hc hcount (hexprs _ (by simp [StmtPiece.exprs, Stmt.exprs])) trivial
    intro hexit
    have hown := (hv.append (passage_own (i := .copyDown .stack (.ofInt (bottom - (m.depth + size)))
      (.ofInt size)) (by simp) (by simp) rfl (Int.add_zero _))).append (passage_popOps hpop)
      (by simpa using hexit)
    refine ⟨hown.flows.append (.oneJump hreturn), hown.sites.concat fun _ bottom' size' hsame => ?_⟩
    cases hresult.symm.trans hsame
    exact ⟨m.locals, e, m.depth, ops, hvalue, hfits, rfl⟩
  | returnPlain hnone hpop hreturn =>
    intro _
    have hown : Passage Γ f exprs count _ _ _ := passage_popOps hpop (by simp)
    refine ⟨hown.flows.append (.oneJump hreturn), hown.sites.concat fun _ bottom size hsome => ?_⟩
    cases hnone.symm.trans hsome
  | breakOut hpop hleave =>
    exact (passage_popOps hpop).append (passage_jump hleave (htargets _ (.head _)).1)
  | continueLoop htarget hpop hlabel =>
    obtain ⟨t, ht, hagain⟩ := exists_of_findSome?_eq_some htarget
    obtain ⟨label, hl, heq⟩ := map_eq_some_iff.mp hagain
    obtain ⟨rfl, rfl⟩ := Prod.mk.inj heq
    refine (passage_popOps hpop).append (passage_jump hlabel fun heq => (htargets t ht).2 ?_)
    rw [hl, heq]
  | empty => exact passage_nil
  | noStmts => exact passage_nil
  | stmts _ _ ihs ihr =>
    have hs := ihs (fun e he => hexprs e (mem_append_left _ he)) htargets
    have hr := ihr (fun e he => hexprs e (mem_append_right _ he)) htargets
    exact hs.append hr
  | noVars => exact passage_nil
  | @vars _ _ _ _ _ m _ _ _ _ _ _ _ hsize hinit _ ih =>
    have hi := InitCode.passage hc hcount hinit (fun e he => hexprs e (by simp_all [StmtPiece.exprs]))
    have hr := ih (fun e he => hexprs e (by simp_all [StmtPiece.exprs])) htargets
    exact (((passage_reserveOps _).cast (congrArg (m.depth + ·) hsize)).append hi).append hr
  | noCases => exact passage_nil
  | label _ hlabel _ ih =>
    have hr := ih (fun e he => hexprs e (mem_append_right _ he)) htargets
    exact (passage_mark hlabel).append hr
  | case _ _ _ ihs ihr =>
    have hs := ihs (fun e he => hexprs e (mem_append_left _ he)) htargets
    have hr := ihr (fun e he => hexprs e (mem_append_right _ he)) htargets
    exact hs.append hr

theorem InitsCode.passage {d : Int} {ds : List Declarator} (h : InitsCode Γ f d ds ops)
    (hexprs : ∀ decl ∈ ds, ∀ e ∈ decl.init, e.parts ⊆ exprs) :
    Passes Γ f exprs count d ops d := by
  induction h with
  | nil => exact passage_nil
  | plain _ _ ih => exact ih fun decl hd => hexprs decl (.tail _ hd)
  | @init decl ds e var info slot value rest hinit _ _ hvalue _ _ ih =>
    have hv := hvalue.passage hc hcount (hexprs _ (.head _) _ hinit) trivial
    have hr := ih (fun decl hd => hexprs decl (.tail _ hd))
    obtain ⟨hlo, hhi⟩ := hc.isOperand info.type
    exact ((hv.append passage_storeOp).append (passage_moveSp ⟨by omega, by omega⟩ (by omega))).append hr

end Statements
end Trees
end Nwscript
