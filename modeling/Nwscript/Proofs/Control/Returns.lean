import Nwscript.Proofs.Code.Accepted

/-! # Control flow of accepted programs

In a program without errors, every path through a function with a result ends with a return, and
the warnings are about statements that never start. -/

open List

namespace Nwscript

open Control

/-! ## Breaks and continues have a target -/

section Jumps

variable {engine : EngineTable} {a : Analysis}

theorem anyBreaks_eq_any (ss : List Stmt) : anyBreaks ss = ss.any Stmt.breaks := by
  induction ss with
  | nil => rfl
  | cons s ss ih => rw [anyBreaks, ih, any_cons]

theorem anyContinues_eq_any (ss : List Stmt) : anyContinues ss = ss.any Stmt.continues := by
  induction ss with
  | nil => rfl
  | cons s ss ih => rw [anyContinues, ih, any_cons]

theorem breaks_eq_false {s : Stmt} {ctx : BodyContext} (hctx : ctx.breakables = 0)
    {visible : List VarId} (h : StmtOk engine a ctx visible s) : s.breaks = false := by
  induction s using Stmt.inductionOn generalizing visible with
  | block pos body ih =>
    rw [Stmt.breaks, anyBreaks_eq_any, any_eq_false]
    intro s hs
    obtain ⟨inner, hok⟩ := BlockOk.of_mem h hs
    simp [ih s hs hok]
  | ifThen pos cond yes ih => exact ih h.2
  | ifElse pos cond yes no ihy ihn => rw [Stmt.breaks, ihy h.2.1, ihn h.2.2]; rfl
  | breakOut pos => exact absurd hctx h
  | _ => rfl

theorem continues_eq_false {s : Stmt} {ctx : BodyContext} (hctx : ctx.loops = 0)
    {visible : List VarId} (h : StmtOk engine a ctx visible s) : s.continues = false := by
  induction s using Stmt.inductionOn generalizing ctx visible with
  | block pos body ih =>
    rw [Stmt.continues, anyContinues_eq_any, any_eq_false]
    intro s hs
    obtain ⟨inner, hok⟩ := BlockOk.of_mem h hs
    simp [ih s hs hctx hok]
  | switch pos value body ih =>
    obtain ⟨type, -, -, h⟩ := h
    rw [Stmt.continues, anyContinues_eq_any, any_eq_false]
    intro s hs
    have hswitch : ctx.inSwitch.loops = 0 := hctx
    rcases h.of_mem hs with ⟨inner, hok⟩ | ⟨pos, label, inner, rfl, -⟩ | ⟨pos, rfl⟩
    · simp [ih s hs hswitch hok]
    · simp [Stmt.continues]
    · simp [Stmt.continues]
  | ifThen pos cond yes ih => exact ih hctx h.2
  | ifElse pos cond yes no ihy ihn => rw [Stmt.continues, ihy hctx h.2.1, ihn hctx h.2.2]; rfl
  | continueLoop pos => exact absurd hctx h
  | _ => rfl

/-- Control leaves the body of a function by a return, or at its end if it has no result. -/
theorem FunctionOk.exit {decl : FunctionDecl} {body : List Stmt} {f : FuncInfo}
    (h : FunctionOk engine a decl body f) {exit : Exit} (hruns : Runs a.consts (.seq body) exit) :
    exit = .returned ∨ exit = .normal ∧ f.ret = .void := by
  obtain ⟨visible, -, hbody⟩ := h.scope
  have hallowed := hruns.allowed
  cases exit with
  | returned => exact .inl rfl
  | normal =>
    refine .inr ⟨rfl, by_contra fun hret => ?_⟩
    exact Bool.false_ne_true ((h.returns hret).symm.trans hallowed)
  | broke =>
    obtain ⟨s, hs, hbreaks⟩ := any_eq_true.mp ((anyBreaks_eq_any body).symm.trans hallowed)
    obtain ⟨inner, hok⟩ := hbody.of_mem hs
    simp [breaks_eq_false rfl hok] at hbreaks
  | continued =>
    obtain ⟨s, hs, hcontinues⟩ := any_eq_true.mp ((anyContinues_eq_any body).symm.trans hallowed)
    obtain ⟨inner, hok⟩ := hbody.of_mem hs
    simp [continues_eq_false rfl hok] at hcontinues

end Jumps

/-! ## Programs -/

def deadAt (consts : NodeTable Value) : Item → StmtSites
  | .function _ body => deadIn consts false true false body
  | _ => []

theorem warnings_flatMap_deadAt (a : Analysis) (program : Program) :
    (CheckState.warnings (program.flatMap (Check.warnedAt a))).reverse =
      (program.flatMap (deadAt a.consts)).map fun site => ⟨.unreachable, site.2.pos⟩ := by
  have hitem (item : Item) : Check.warnedAt a item = (deadAt a.consts item).positions := by
    cases item <;> rfl
  rw [CheckState.warnings, reverse_reverse, map_flatMap, map_flatMap]
  congr 1
  funext item
  rw [hitem, StmtSites.positions, map_map]
  rfl

namespace Accepted

variable {engine : EngineTable} {program : Program}

/-- **Every path through a function with a result returns, and no reported statement ever starts.**
The check overlooks no way to the end of a statement or of a block. -/
theorem paths_return (h : Accepted engine program) :
    (∀ s, Runs (check engine program).analysis.consts (.stmt s) .normal →
      fallsThrough (check engine program).analysis.consts s = true) ∧
    (∀ ss, Runs (check engine program).analysis.consts (.seq ss) .normal →
      blockFallsThrough (check engine program).analysis.consts true ss = true) ∧
    (∀ (index : Nat) decl body, program[index]? = some (.function decl body) →
      ∃ f, Check.IsDefinedBy (check engine program).analysis decl.name index f ∧
        ∀ exit, Runs (check engine program).analysis.consts (.seq body) exit →
          exit = .returned ∨ exit = .normal ∧ f.ret = .void) ∧ (check engine program).findings =
      ((program.flatMap (deadAt (check engine program).analysis.consts)).map
        fun site => ⟨.unreachable, site.2.pos⟩) ∧ ∀ decl body, .function decl body ∈ program → ∀ path s,
      (path, s) ∈ deadAt (check engine program).analysis.consts (.function decl body) →
      seqAt? body path = some s ∧ ¬ Starts (check engine program).analysis.consts (.seq body) path := by
  refine ⟨fun s hs => hs.allowed, fun ss hss => hss.allowed, fun index decl body hitem => ?_, ?_,
    fun decl body _ path s hmem => ⟨seqAt?_of_mem_deadIn hmem, ?_⟩⟩
  · obtain ⟨f, hdefined, hok⟩ := h.functionOk hitem
    exact ⟨f, hdefined, fun exit hruns => hok.exit hruns⟩
  · rw [← warnings_flatMap_deadAt]
    exact congrArg List.reverse h.passes.findings
  · exact (not_starts_of_mem_deadIn (fun _ _ _ _ h => not_starts_of_mem_dead h) hmem).1 rfl

end Accepted

namespace Sample

/-- A function with an endless loop, and a call behind a return. -/
def stray : Parsed :=
  parse engine.typeNames ((lex "int f(){while(1){}}void main(){return;f();}" 0).filterMap Except.toOption)

theorem stray_stages : stray.errors.isEmpty = true ∧
    ((check engine stray.program).findings.map fun f => f.problem.severity) = [.warning] := by
  decide +kernel

theorem stray_accepted : Accepted engine stray.program where
  table := ⟨_, _, engine_ofSource⟩
  parsed := ⟨_, List.isEmpty_iff.mp stray_stages.1, rfl⟩
  checked f hf := by
    have hmem : f.problem.severity ∈ [Severity.warning] :=
      stray_stages.2 ▸ mem_map_of_mem hf
    simp [mem_singleton.mp hmem]

end Sample

theorem Accepted.paths_return_stray : Accepted Sample.engine Sample.stray.program ∧
    ((check Sample.engine Sample.stray.program).findings.map fun f => f.problem.severity) = [.warning] ∧
    ∀ decl body, .function decl body ∈ Sample.stray.program → ∀ path s,
      (path, s) ∈ deadAt (check Sample.engine Sample.stray.program).analysis.consts
        (.function decl body) → seqAt? body path = some s ∧
        ¬ Starts (check Sample.engine Sample.stray.program).analysis.consts (.seq body) path :=
  ⟨Sample.stray_accepted, Sample.stray_stages.2, (Accepted.paths_return Sample.stray_accepted).2.2.2.2⟩

end Nwscript
