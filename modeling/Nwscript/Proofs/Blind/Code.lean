import Nwscript.Code.Program
import Nwscript.Object.Link
import Nwscript.Proofs.Blind.Check
import Nwscript.Proofs.Parser.Walk

/-! # Code does not depend on places

The generator reads no places at all: at other places it does the very same steps. With what holds of
parsers and checks this gives that programs whose tokens agree in kinds and texts are the same
programs, wherever the tokens stand. -/

open List
open Option hiding map_bind bind_congr

namespace Nwscript

variable {α : Type} {body : List Stmt} {m n : Nat}

variable {φ : Pos → Pos} {ι : Nat → Nat}

def GenContext.moved (φ : Pos → Pos) (ι : Nat → Nat) (c : GenContext) : GenContext :=
  { c with analysis := c.analysis.moved φ ι }

namespace Gen

/-! ## Looking things up -/

section

variable (c : GenContext) (f : Frame)

theorem orFault_map {β : Type} (fault : GenFault) (m : α → α) (o : Option α) (k : α → Gen β) :
    (orFault fault (o.map m) >>= k) = orFault fault o >>= fun a => k (m a) := by
  cases o <;> rfl

theorem orFault_congr {β : Type} {fault : GenFault} {o : Option α} {k l : α → Gen β}
    (h : ∀ a, o = some a → k a = l a) : (orFault fault o >>= k) = orFault fault o >>= l := by
  cases o with
  | none => rfl
  | some a => exact h a rfl

theorem varInfo_moved (var : VarId) (k : VarInfo → Gen α) :
    (varInfo (c.moved φ ι) var >>= k) = varInfo c var >>= fun info => k (info.moved φ) := by
  unfold varInfo
  rw [show (c.moved φ ι).analysis = c.analysis.moved φ ι from rfl, Analysis.moved_vars]
  exact orFault_map _ _ _ _

@[simp] theorem typeOf_moved (e : Expr) : typeOf (c.moved φ ι) (e.moved φ) = typeOf c e := by
  rw [typeOf, Expr.moved_id]
  rfl

@[simp] theorem varRef_moved (e : Expr) : varRef (c.moved φ ι) (e.moved φ) = varRef c e := by
  rw [varRef, Expr.moved_id]
  rfl

@[simp] theorem slot_moved (var : VarId) : slot (c.moved φ ι) var = slot c var := by
  simp only [slot, varInfo_moved]
  rfl

@[simp] theorem address_moved (var : VarId) (offset : Int) :
    address (c.moved φ ι) var offset = address c var offset := by
  rw [address, slot_moved]
  rfl

@[simp] theorem load_moved (var : VarId) (offset size : Int) :
    load (c.moved φ ι) var offset size = load c var offset size := by
  rw [load, address_moved, load]

@[simp] theorem store_moved (var : VarId) (offset size : Int) :
    store (c.moved φ ι) var offset size = store c var offset size := by
  rw [store, address_moved, store]

@[simp] theorem stepVar_moved (s : Step) (var : VarId) : stepVar (c.moved φ ι) s var = stepVar c s var := by
  rw [stepVar, address_moved, stepVar]

@[simp] theorem stepAndLoad_moved (s : Step) (order : StepOrder) (var : VarId) :
    stepAndLoad (c.moved φ ι) s order var = stepAndLoad c s order var := by
  simp only [stepAndLoad, stepVar_moved, load_moved]

@[simp] theorem place_moved (e : Expr) : place (c.moved φ ι) (e.moved φ) = place c e := by
  induction e using Expr.inductionOn with
  | ident node name =>
    simp only [Expr.moved, place, varInfo_moved]
    rfl
  | field node base name ih =>
    simp only [Expr.moved, place, ih]
    rfl
  | _ => rfl

/-! ## Expressions -/

theorem userArgs_moved {args : List Expr} (h : ∀ e ∈ args, expr (c.moved φ ι) f (e.moved φ) = expr c f e)
    (name : String) (index : Nat) (params : List FuncParam) :
    userArgs (c.moved φ ι) f name index params (args.map (Expr.moved φ)) =
      userArgs c f name index params args := by
  induction args generalizing index params with
  | nil => rw [map_nil, userArgs, userArgs]
  | cons arg args ih =>
    rw [forall_mem_cons] at h
    cases params with
    | nil => rw [map_cons, userArgs, userArgs]
    | cons param params => rw [map_cons, userArgs, userArgs, ih h.2, h.1]

theorem engineArgs_moved {args : List Expr} (h : ∀ e ∈ args, expr (c.moved φ ι) f (e.moved φ) = expr c f e)
    (params : List EngineParam) :
    engineArgs (c.moved φ ι) f params (args.map (Expr.moved φ)) = engineArgs c f params args := by
  induction args generalizing params with
  | nil => rw [map_nil, engineArgs, engineArgs]
  | cons arg args ih =>
    rw [forall_mem_cons] at h
    rw [map_cons, engineArgs, engineArgs, ih h.2, h.1, typeOf_moved]
    rfl

@[simp] theorem expr_moved (e : Expr) : expr (c.moved φ ι) f (e.moved φ) = expr c f e := by
  induction e using Expr.inductionOn with
  | literal node value =>
    rw [Expr.moved, expr, expr]
    rfl
  | ident node name =>
    have href : varRef (c.moved φ ι) (.ident (node.moved φ) name) = varRef c (.ident node name) :=
      varRef_moved c (.ident node name)
    rw [Expr.moved, expr, expr]
    simp only [href, varInfo_moved, load_moved]
    rfl
  | binary node op lhs rhs ihl ihr =>
    rw [Expr.moved, expr, expr, ihl, ihr, typeOf_moved, typeOf_moved]
    rfl
  | unary node op operand ih =>
    rw [Expr.moved, expr, expr, ih, typeOf_moved]
    rfl
  | step node s order target ih =>
    rw [Expr.moved, expr, expr]
    simp only [varRef_moved, stepAndLoad_moved]
    rfl
  | call node name args ih =>
    have huser := userArgs_moved c f ih
    have hengine := engineArgs_moved c f ih
    rw [Expr.moved, Expr.movedAll_eq_map, expr, expr]
    simp only [show (c.moved φ ι).analysis = c.analysis.moved φ ι from rfl, Analysis.moved_functions, orFault_map,
      huser, hengine, length_map]
    rfl
  | assign node op target value iht ihv =>
    rw [Expr.moved, expr, expr]
    simp only [place_moved, ihv, store_moved, load_moved, typeOf_moved]
    rfl
  | field node base name ih =>
    have hplace : place (c.moved φ ι) (.field (node.moved φ) (base.moved φ) name) = _ :=
      place_moved c (.field node base name)
    rw [Expr.moved, expr, expr]
    simp only [hplace, ih, load_moved, typeOf_moved]
    rfl
  | conditional node cond yes no ihc ihy ihn =>
    rw [Expr.moved, expr, expr, ihc, ihy, ihn]
    rfl

@[simp] theorem discarded_moved (e : Expr) : discarded (c.moved φ ι) f (e.moved φ) = discarded c f e := by
  rw [discarded, expr_moved, typeOf_moved]
  rfl

/-! ## Statements -/

theorem initVar_moved (size : Int) (init : Option Expr) :
    initVar (c.moved φ ι) f size (init.map (Expr.moved φ)) = initVar c f size init := by
  cases init with
  | none => rfl
  | some init => rw [map_some, initVar, expr_moved, initVar]

theorem declareVar_moved (decl : Declarator) : declareVar (c.moved φ ι) f (decl.moved φ) = declareVar c f decl := by
  simp only [declareVar, varInfo_moved, Declarator.moved, initVar_moved]
  rfl

theorem returnValue_moved (value : Option Expr) :
    returnValue (c.moved φ ι) f (value.map (Expr.moved φ)) = returnValue c f value := by
  have hstore : storeResult (c.moved φ ι) f (value.map (Expr.moved φ)) = storeResult c f value := by
    cases value with
    | none => rfl
    | some e =>
      rcases h : f.result with _ | ⟨bottom, size⟩
      · simp only [map_some, storeResult, h]
      · simp only [map_some, storeResult, h, expr_moved]
  rw [returnValue, hstore, returnValue]

theorem optional_moved (e : Option Expr) :
    optional (c.moved φ ι) f (e.map (Expr.moved φ)) = optional c f e := by
  cases e with
  | none => rfl
  | some e => exact discarded_moved c f e

theorem exitUnless_moved (leave : Label) (e : Option Expr) :
    exitUnless (c.moved φ ι) f leave (e.map (Expr.moved φ)) = exitUnless c f leave e := by
  cases e with
  | none => rfl
  | some e => rw [map_some, exitUnless, expr_moved, exitUnless]

theorem dispatch_moved (pair : UInt8) (ss : List Stmt) :
    dispatch (c.moved φ ι) pair (ss.map (Stmt.moved φ)) = dispatch c pair ss := by
  induction ss with
  | nil => rfl
  | cons s ss ih =>
    cases s with
    | caseLabel pos label =>
      rw [map_cons, Stmt.moved, dispatch, dispatch, ih, Expr.moved_id]
      rfl
    | defaultLabel pos => rw [map_cons, Stmt.moved, dispatch, dispatch, ih]
    | _ => exact congrArg (fun m => m >>= _) ih

theorem switch_moved (value : Expr) (body : List Stmt)
    (inner : JumpTarget → List (Option Label) → Gen (List Op)) :
    switch (c.moved φ ι) f (value.moved φ) (body.map (Stmt.moved φ)) inner = switch c f value body inner := by
  simp only [switch, typeOf_moved, expr_moved, dispatch_moved]

theorem stmts_moved
    (h : ∀ s ∈ body, ∀ targets, stmt (c.moved φ ι) f targets (s.moved φ) = stmt c f targets s)
    (targets : List JumpTarget) :
    stmts (c.moved φ ι) f targets (body.map (Stmt.moved φ)) = stmts c f targets body := by
  induction body with
  | nil => rw [map_nil, stmts, stmts]
  | cons s rest ih =>
    rw [forall_mem_cons] at h
    rw [map_cons, stmts, stmts, h.1, ih h.2]

theorem switchBody_moved
    (h : ∀ s ∈ body, ∀ targets, stmt (c.moved φ ι) f targets (s.moved φ) = stmt c f targets s)
    (targets : List JumpTarget) (labels : List (Option Label)) :
    switchBody (c.moved φ ι) f targets labels (body.map (Stmt.moved φ)) =
      switchBody c f targets labels body := by
  induction body generalizing labels with
  | nil => rw [map_nil, switchBody, switchBody]
  | cons s rest ih =>
    rw [forall_mem_cons] at h
    rw [map_cons, switchBody, switchBody, h.1, ih h.2]

theorem stmt_moved (s : Stmt) (targets : List JumpTarget) :
    stmt (c.moved φ ι) f targets (s.moved φ) = stmt c f targets s := by
  induction s using Stmt.inductionOn generalizing targets with
  | block pos body ih => rw [Stmt.moved, Stmt.movedAll_eq_map, stmt, stmt, stmts_moved c f ih]
  | var pos decl =>
    have hvars : (decl.moved φ).vars.map (declareVar (c.moved φ ι) f) = decl.vars.map (declareVar c f) := by
      simp [VarDecl.moved, declareVar_moved, Function.comp_def]
    rw [Stmt.moved, stmt, stmt, hvars]
  | expr pos e => rw [Stmt.moved, stmt, stmt, discarded_moved]
  | ifThen pos cond yes ihy => rw [Stmt.moved, stmt, stmt, expr_moved, ihy]
  | ifElse pos cond yes no ihy ihn => rw [Stmt.moved, stmt, stmt, expr_moved, ihy, ihn]
  | whileLoop pos cond body ihb =>
    have htest (leave : Label) : exitUnless (c.moved φ ι) f leave (some (cond.moved φ)) = _ :=
      exitUnless_moved c f leave (some cond)
    rw [Stmt.moved, stmt, stmt]
    simp only [htest, ihb]
  | doWhile pos body cond ihb =>
    rw [Stmt.moved, stmt, stmt]
    simp only [expr_moved, ihb]
  | forLoop pos init cond next body ihb =>
    rw [Stmt.moved, stmt, stmt]
    simp only [optional_moved, exitUnless_moved, ihb]
  | switch pos value body ih =>
    rw [Stmt.moved, Stmt.movedAll_eq_map, stmt, stmt, switch_moved]
    simp only [switchBody_moved c f ih]
  | ret pos value => rw [Stmt.moved, stmt, stmt, returnValue_moved]
  | caseLabel pos label => rw [Stmt.moved, stmt, stmt]
  | defaultLabel pos => rw [Stmt.moved, stmt, stmt]
  | breakOut pos => rw [Stmt.moved, stmt.eq_def, stmt.eq_def]
  | continueLoop pos => rw [Stmt.moved, stmt, stmt]
  | empty pos => rw [Stmt.moved, stmt, stmt]

theorem block_moved (body : List Stmt) : block (c.moved φ ι) f (body.map (Stmt.moved φ)) = block c f body := by
  rw [block, stmts_moved c f fun s _ targets => stmt_moved c f s targets, block]

/-! ## Programs -/

theorem globalDeclarators_relaid {p q : Program} (h : Relaid φ ι m p n q) :
    globalDeclarators q = (globalDeclarators p).map (Declarator.moved φ) := by
  have hsplit (item : Item) (items : Program) :
      globalDeclarators (item :: items) = globalDeclarators [item] ++ globalDeclarators items := by
    simp [globalDeclarators]
  induction h with
  | nil => rfl
  | @item _ _ p q item _ _ ih =>
    have hone : globalDeclarators [item.moved φ] = (globalDeclarators [item]).map (Declarator.moved φ) := by
      cases item with
      | global decl =>
        cases h : decl.isConst <;> simp [globalDeclarators, Item.moved, VarDecl.moved, h]
      | _ => rfl
    rw [hsplit, hone, ih, hsplit item p, map_append]
  | inert hinert _ ih => cases hinert <;> exact ih

theorem reserveGlobal_moved (decl : Declarator) :
    reserveGlobal (c.moved φ ι) (decl.moved φ) = reserveGlobal c decl := by
  simp only [reserveGlobal, varInfo_moved]
  rfl

theorem initGlobal_moved (decl : Declarator) : initGlobal (c.moved φ ι) f (decl.moved φ) = initGlobal c f decl := by
  obtain ⟨node, name, init⟩ := decl
  cases init with
  | none => rfl
  | some init =>
    simp only [initGlobal, Declarator.moved, map_some, varInfo_moved, expr_moved, store_moved]
    rfl

theorem globalsRoutine_relaid {p q : Program} (h : Relaid φ ι m p n q) (label : Label)
    (entry : Option (EntryPoint × Label)) :
    globalsRoutine (c.moved φ ι) q label entry = globalsRoutine c p label entry := by
  have hcells : (globalDeclarators q).map (reserveGlobal (c.moved φ ι)) =
      (globalDeclarators p).map (reserveGlobal c) := by
    rw [globalDeclarators_relaid h, List.map_map]
    exact map_congr_left fun decl _ => reserveGlobal_moved c decl
  have hinits (f : Frame) : (globalDeclarators q).map (initGlobal (c.moved φ ι) f) =
      (globalDeclarators p).map (initGlobal c f) := by
    rw [globalDeclarators_relaid h, List.map_map]
    exact map_congr_left fun decl _ => initGlobal_moved c f decl
  simp only [globalsRoutine, hcells, hinits]
  rfl

theorem paramSlots_moved (bottom : Int) (params : List Param) :
    paramSlots (c.moved φ ι) bottom (params.map (Param.moved φ)) = paramSlots c bottom params := by
  induction params generalizing bottom with
  | nil => rfl
  | cons p ps ih =>
    simp only [map_cons, paramSlots, varInfo_moved, ih]
    rfl

theorem getElem?_relaid {p q : Program} (h : Relaid φ ι m p n q) {index : Nat}
    {decl : FunctionDecl} (hitem : p[index]? = some (.function decl body)) :
    ∃ place, ι (m + index) = n + place ∧ q[place]? = some ((Item.function decl body).moved φ) := by
  induction h generalizing index with
  | nil => cases hitem
  | @item m n p q item hnumber _ ih =>
    cases index with
    | zero =>
      cases hitem
      exact ⟨0, hnumber decl body rfl, rfl⟩
    | succ index =>
      obtain ⟨place, hplace, hq⟩ := ih hitem
      exact ⟨place + 1, by rw [← Nat.add_assoc, Nat.add_right_comm, hplace]; omega, hq⟩
  | inert _ _ ih =>
    obtain ⟨place, hplace, hq⟩ := ih hitem
    exact ⟨place + 1, by rw [hplace]; omega, hq⟩

variable {p q : Program}

theorem function_relaid (h : Relaid φ ι 0 p 0 q) (func : FuncId) {index : Nat} {decl : FunctionDecl}
    (hitem : p[index]? = some (.function decl body)) :
    function (c.moved φ ι) q func (ι index) = function c p func index := by
  obtain ⟨place, hplace, hq⟩ := getElem?_relaid h hitem
  rw [Nat.zero_add, Nat.zero_add] at hplace
  rw [function, function, hitem, hplace, hq]
  simp only [Item.moved, show (c.moved φ ι).analysis = c.analysis.moved φ ι from rfl,
    Analysis.moved_functions, orFault_map, FunctionDecl.moved, paramSlots_moved, block_moved]
  rfl

def PlacedRoutine.renumbered (ι : Nat → Nat) (r : PlacedRoutine) : PlacedRoutine :=
  { r with index := ι r.index }

theorem drain_relaid (h : Relaid φ ι 0 p 0 q) (hdefined : c.analysis.DefinesFunctions p) (steps : Nat) :
    drain (c.moved φ ι) q steps = List.map (PlacedRoutine.renumbered ι) <$> drain c p steps := by
  induction steps with
  | zero =>
    rw [drain, drain, map_bind]
    refine bind_congr fun s => ?_
    split <;> rfl
  | succ steps ih =>
    rw [drain, drain, map_bind]
    refine bind_congr fun s => ?_
    cases s.queue with
    | nil => rfl
    | cons func queue =>
      simp only [map_bind, map_pure, map_cons, show (c.moved φ ι).analysis = c.analysis.moved φ ι from rfl,
        Analysis.moved_definition?, orFault_map]
      refine bind_congr fun _ => orFault_congr fun index hindex => ?_
      obtain ⟨decl, body, hitem⟩ := hdefined func index hindex
      rw [function_relaid c h func hitem, ih]
      simp only [bind_map_left]
      rfl

theorem program_relaid (hι : StrictMono ι) (h : Relaid φ ι 0 p 0 q)
    (hdefined : c.analysis.DefinesFunctions p) : program (c.moved φ ι) q = program c p := by
  have hinit (entry : Option (EntryPoint × Label)) (globals : Option Label) :
      initRoutines (c.moved φ ι) q entry globals = initRoutines c p entry globals := by
    cases globals with
    | none => rfl
    | some label => rw [initRoutines, globalsRoutine_relaid c h, initRoutines]
  have hsize : (c.moved φ ι).analysis.functions.size = c.analysis.functions.size := Array.size_map
  have hsorted (entry : Option FuncId) (rs : List PlacedRoutine) :
      ((rs.map (PlacedRoutine.renumbered ι)).mergeSort (precedes entry)).map PlacedRoutine.routine =
        (rs.mergeSort (precedes entry)).map PlacedRoutine.routine := by
    have horder : ∀ a ∈ rs, ∀ b ∈ rs, precedes entry a b =
        precedes entry (a.renumbered ι) (b.renumbered ι) := by
      intro a _ b _
      simp only [precedes, PlacedRoutine.renumbered, hι.le_iff_le]
    rw [← map_mergeSort horder, List.map_map]
    rfl
  rw [program, program]
  simp only [hinit, drain_relaid c h hdefined, hsize, bind_map_left, hsorted]
  rfl

end

end Gen

theorem GlobalLayout.ofAnalysis_moved (a : Analysis) :
    GlobalLayout.ofAnalysis (a.moved φ ι) = GlobalLayout.ofAnalysis a := by
  have hadd : GlobalLayout.add (a.moved φ ι) = GlobalLayout.add a := by
    funext layout var
    rw [GlobalLayout.add, Analysis.moved_vars, GlobalLayout.add]
    cases a.vars[var]? <;> rfl
  rw [GlobalLayout.ofAnalysis, hadd]
  rfl

theorem generate_relaid (engine : EngineTable) {a : Analysis} {p q : Program} (hι : StrictMono ι)
    (h : Relaid φ ι 0 p 0 q) (hdefined : a.DefinesFunctions p) :
    generate engine q (a.moved φ ι) = generate engine p a := by
  let c : GenContext := { analysis := a, engine, globals := .ofAnalysis a }
  have hcontext :
      ({ analysis := a.moved φ ι, engine, globals := .ofAnalysis (a.moved φ ι) } : GenContext) =
        c.moved φ ι := by
    simp only [GlobalLayout.ofAnalysis_moved]
    rfl
  simp only [generate, hcontext, Gen.program_relaid c hι h hdefined]
  rfl

/-! ## Without places -/

theorem parse_map_bare (engineTypes : List String) (ts : List Token) :
    parse engineTypes (ts.map Token.bare) = (parse engineTypes ts).bare := by
  rw [Parsed.bare_eq_moved]
  exact parse_map_moved .off engineTypes ts

theorem check_bare (engine : EngineTable) (program : Program) :
    check engine program.bare = (check engine program).bare := by
  rw [Program.bare_eq_moved, check_moved, Checked.moved, ← Analysis.bare_eq_moved]
  rfl

theorem generate_bare (engine : EngineTable) (program : Program) :
    generate engine program.bare (check engine program).analysis.bare =
      generate engine program (check engine program).analysis := by
  rw [Program.bare_eq_moved, Analysis.bare_eq_moved]
  exact generate_relaid engine strictMono_id (.moved _ 0 program) (check_definesFunctions engine program)

theorem generate_of_bare_eq (engine : EngineTable) {p q : Program} (h : p.bare = q.bare) :
    generate engine p (check engine p).analysis = generate engine q (check engine q).analysis := by
  have hanalysis : (check engine p).analysis.bare = (check engine q).analysis.bare := by
    have hchecked := check_bare engine p
    rw [h, check_bare] at hchecked
    exact congrArg Checked.analysis hchecked.symm
  rw [← generate_bare, h, hanalysis, generate_bare]

/-! ## Layout -/

/-- Two lists of tokens that no stage can tell apart but for the places it reports. -/
structure Indistinguishable (engine : EngineTable) (ts us : List Token) : Prop where
  /-- The programs with the numbers of their nodes, the declarations and the errors. -/
  parsed : (parse engine.typeNames ts).bare = (parse engine.typeNames us).bare
  /-- The tables and the problems. -/
  checked : (check engine (parse engine.typeNames ts).program).bare =
    (check engine (parse engine.typeNames us).program).bare
  code : generate engine (parse engine.typeNames ts).program
      (check engine (parse engine.typeNames ts).program).analysis =
    generate engine (parse engine.typeNames us).program
      (check engine (parse engine.typeNames us).program).analysis
  /-- The bytes, or the fault that stops the linker. -/
  object : (generate engine (parse engine.typeNames ts).program
      (check engine (parse engine.typeNames ts).program).analysis).map link =
    (generate engine (parse engine.typeNames us).program
      (check engine (parse engine.typeNames us).program).analysis).map link

/-- Only the kinds and the texts of tokens matter: not where they stand, in which file, or what
stands between them. -/
theorem indistinguishable_of_same_texts (engine : EngineTable) {ts us : List Token}
    (h : List.Forall₂ (fun t u => t.kind = u.kind ∧ t.text = u.text) ts us) :
    Indistinguishable engine ts us := by
  have hparsed : (parse engine.typeNames ts).bare = (parse engine.typeNames us).bare := by
    rw [← parse_map_bare, (map_bare_eq_map_bare_iff ts us).mpr h, parse_map_bare]
  have hprogram : (parse engine.typeNames ts).program.bare =
      (parse engine.typeNames us).program.bare := congrArg Parsed.program hparsed
  have hchecked : (check engine (parse engine.typeNames ts).program).bare =
      (check engine (parse engine.typeNames us).program).bare := by
    rw [← check_bare, hprogram, check_bare]
  have hcode := generate_of_bare_eq engine hprogram
  exact ⟨hparsed, hchecked, hcode, by rw [hcode]⟩

/-- A comment, line breaks and another file do not matter. -/
theorem indistinguishable_of_same_texts_comment :
    let engine : EngineTable := { version := "1", checksum := 0 }
    let plain := tokens "int n;void main()\x7bn=1;\x7d" 0
    let spread := tokens "int n; // a counter\nvoid main() \x7b\n  n = 1; /* set it */\n\x7d\n" 3
    plain ≠ spread ∧ Indistinguishable engine plain spread := by
  intro engine plain spread
  refine ⟨by decide +kernel, indistinguishable_of_same_texts engine ?_⟩
  decide +kernel

end Nwscript
