import Nwscript.Proofs.Code.Linking
import Nwscript.Proofs.Code.Parts
import Nwscript.Proofs.Trace.Evaluation

/-! # Operands of events

Sizes and offsets become operands of 16 bits, and the number of arguments of an action one of 8 bits.
Nothing is lost exactly where the number fits, and all of them fit if no structure takes up 65536 bytes
and no call has more than 255 arguments. -/

open List Option

namespace Nwscript

open Gen

/-! ## Numbers that fit -/

def Event.Fits : Event → Prop
  | .load size | .store size | .compare size => IsOperand size
  | .destruct size offset keep => IsOperand size ∧ IsOperand offset ∧ IsOperand keep
  | .call _ _ => True
  | .action _ _ argc => argc ≤ 255

def Event.Exact : Event → Op → Prop
  | .load size, .instr (.copyTop _ _ operand) => (operand.toNat : Int) = size
  | .store size, .instr (.copyDown _ _ operand) => (operand.toNat : Int) = size
  | .compare size, .instr (.compare _ operand) => (operand.toNat : Int) = size
  | .destruct size offset keep, .instr (.destruct whole start part) =>
    (whole.toNat : Int) = size ∧ (start.toNat : Int) = offset ∧ (part.toNat : Int) = keep
  | .call _ _, .jump .call _ => True
  | .action _ ordinal argc, .instr (.action number count) => number = ordinal ∧ count.toNat = argc
  | _, _ => False

theorem toNat_ofInt_iff (size : Int) : ((UInt16.ofInt size).toNat : Int) = size ↔ IsOperand size := by
  refine ⟨fun h => ?_, IsOperand.toNat_ofInt⟩
  have hlt := (UInt16.ofInt size).toNat_lt
  exact ⟨by omega, by omega⟩

theorem toNat_toUInt8_iff (argc : Nat) : argc.toUInt8.toNat = argc ↔ argc ≤ 255 := by
  have hnat : argc.toUInt8.toNat = argc % 256 := UInt8.toNat_ofNat'
  omega

variable {labels : List (FuncId × Label)} {body : List Stmt} {items : Program} {size : Int}

theorem Event.Line.exact_iff_fits {event : Event} {op : Op} (h : event.Line labels op) :
    event.Exact op ↔ event.Fits := by
  cases h with
  | load base offset size => exact toNat_ofInt_iff size
  | store base offset size => exact toNat_ofInt_iff size
  | compare opcode size => exact toNat_ofInt_iff size
  | destruct size offset keep =>
    exact and_congr (toNat_ofInt_iff size) (and_congr (toNat_ofInt_iff offset) (toNat_ofInt_iff keep))
  | call hfunc => exact Iff.rfl
  | action node ordinal argc => exact (and_iff_right rfl).trans (toNat_toUInt8_iff argc)

/-! ## Trees whose events fit -/

structure StructTable.Narrow (t : StructTable) : Prop where
  size : ∀ type, IsOperand (t.sizeOf type)
  offset : ∀ {type name offset fieldType}, t.field? type name = some (offset, fieldType) → IsOperand offset

theorem StructTable.Small.narrow {t : StructTable} (h : t.Small) (hok : StructsOk t.defs) : t.Narrow where
  size := h.isOperand hok
  offset := by
    intro type name offset fieldType hfield
    obtain ⟨hlo, hhi⟩ := (StructTable.PartOf.whole.field hfield).bounds h.fitting hok
    have hwhole := h.isOperand hok type
    have hpart := h.isOperand hok fieldType
    unfold IsOperand at hwhole hpart ⊢
    omega

theorem Stmt.exprs_subset {st : Stmt} (h : st ∈ body) : st.exprs ⊆ Stmt.exprsOf body :=
  fun _ he => Stmt.mem_exprsOf.mpr ⟨st, h, he⟩

def AllFit (events : List Event) : Prop := ∀ event ∈ events, event.Fits

namespace AllFit

variable {events events' : List Event}

theorem nil : AllFit [] := by simp [AllFit]

theorem append (h : AllFit events) (h' : AllFit events') : AllFit (events ++ events') :=
  forall_mem_append.mpr ⟨h, h'⟩

theorem one {event : Event} (h : event.Fits) : AllFit [event] := by simpa [AllFit] using h

theorem flatMap {α : Type} {f : α → List Event} {xs : List α} (h : ∀ x ∈ xs, AllFit (f x)) :
    AllFit (xs.flatMap f) := by
  intro event hevent
  obtain ⟨x, hx, hmem⟩ := mem_flatMap.mp hevent
  exact h x hx event hmem

end AllFit

namespace GenContext

variable {c : GenContext}

theorem partSize_isOperand (hc : c.analysis.structs.Narrow) (e : Expr) : IsOperand (c.partSize e) := by
  unfold partSize
  split
  · exact hc.size _
  · exact ⟨Int.le_refl 0, by decide⟩

theorem declSize_isOperand (hc : c.analysis.structs.Narrow) (decl : Declarator) :
    IsOperand (c.declSize decl) := by
  have hzero : IsOperand 0 := ⟨Int.le_refl 0, by decide⟩
  unfold declSize
  split
  · split
    · exact hc.size _
    · exact hzero
  · exact hzero

theorem allFit_operator (hc : c.analysis.structs.Narrow) (op : BinOp) (lhs rhs : Option Ty) :
    AllFit (c.operatorEvents op lhs rhs) := by
  unfold operatorEvents
  split
  · split
    · exact .one (hc.size _)
    · exact .nil
  · exact .nil

theorem allFit_cut (hc : c.analysis.structs.Narrow) (type : Option Ty) (name : String) :
    AllFit (c.cutEvents type name) := by
  unfold cutEvents
  split
  · split
    · rename_i hfield
      exact .one ⟨hc.size _, hc.offset hfield, hc.size _⟩
    · exact .nil
  · exact .nil

theorem allFit_callEvents {argc : Nat} (h : argc ≤ 255) (node : NodeId) :
    AllFit (c.callEvents node argc) := by
  unfold callEvents
  split
  · exact .one trivial
  · split
    · exact .one h
    · exact .nil
  · exact .nil

/-- **The events of an expression fit** if the tables are narrow and no call in it has too many
arguments. -/
theorem allFit_expr (hc : c.analysis.structs.Narrow) {e : Expr} (h : FewArgs e.parts) :
    AllFit (c.exprEvents e) := by
  have hcell : AllFit [.load cellSize] := .one isOperand_cellSize
  induction e using Expr.childInduction with
  | h e ih =>
    have ih : ∀ child ∈ e.children, AllFit (c.exprEvents child) :=
      fun child hchild => ih child hchild (ArgCounts.child h hchild)
    cases hconst : c.analysis.valueOf e with
    | some value =>
      unfold exprEvents
      rw [hconst]
      exact .nil
    | none =>
      cases e with
      | literal node value =>
        rw [exprEvents, hconst]
        exact .nil
      | ident node name =>
        rw [exprEvents, hconst]
        exact .one (partSize_isOperand hc _)
      | binary node op lhs rhs =>
        have hl := ih lhs (by simp)
        have hr := ih rhs (by simp)
        rw [exprEvents, hconst]
        dsimp only
        split
        · exact (hl.append (hcell.append hcell)).append hr
        · exact (hl.append hr).append (allFit_operator hc _ _ _)
      | unary node op operand =>
        rw [exprEvents, hconst]
        exact ih operand (by simp)
      | step node st order target =>
        rw [exprEvents, hconst]
        exact hcell
      | call node name args =>
        have hargs : ∀ event ∈ ((c.argEvents args).take (c.pushedArgs node.id args.length)).reverse.flatten,
            event.Fits := by
          intro event hevent
          obtain ⟨events, hevents, hmem⟩ := mem_flatten.mp hevent
          have harg := mem_of_mem_take (mem_reverse.mp hevents)
          rw [argEvents_eq_map] at harg
          obtain ⟨arg, hmemArg, rfl⟩ := List.mem_map.mp harg
          exact ih arg hmemArg event hmem
        rw [exprEvents, hconst]
        exact AllFit.append hargs (allFit_callEvents (h node name args (Expr.self_mem_parts _)) _)
      | assign node op target value =>
        have hv := ih value (by simp)
        have hpart := partSize_isOperand hc target
        have hstore : AllFit [.store (c.partSize target)] := .one hpart
        have hload : AllFit [.load (c.partSize target)] := .one hpart
        unfold exprEvents
        rw [hconst]
        cases op with
        | none => exact hv.append hstore
        | some op => exact ((hload.append hv).append (allFit_operator hc _ _ _)).append hstore
      | field node base name =>
        have hb := ih base (by simp)
        rw [exprEvents, hconst]
        dsimp only
        split
        · exact .one (hc.size _)
        · exact hb.append (allFit_cut hc _ _)
      | conditional node cond yes no =>
        have hcond := ih cond (by simp)
        have hy := ih yes (by simp)
        have hn := ih no (by simp)
        rw [exprEvents, hconst]
        exact (hcond.append hy).append hn

theorem allFit_optional (hc : c.analysis.structs.Narrow) {e : Option Expr}
    (h : ∀ e' ∈ e, FewArgs e'.parts) : AllFit (c.optionalEvents e) := by
  cases e with
  | none => exact .nil
  | some e => exact allFit_expr hc (h e rfl)

theorem allFit_init (hc : c.analysis.structs.Narrow) (hsize : IsOperand size) {init : Option Expr}
    (h : ∀ e ∈ init, FewArgs e.parts) : AllFit (c.initEvents size init) := by
  cases init with
  | none => exact .nil
  | some e => exact (allFit_expr hc (h e rfl)).append (.one hsize)

theorem allFit_decl (hc : c.analysis.structs.Narrow) {decl : Declarator}
    (h : ∀ e ∈ decl.init, FewArgs e.parts) : AllFit (c.declEvents decl) :=
  allFit_init hc (declSize_isOperand hc decl) h

theorem allFit_test (st : Stmt) : AllFit (testEvents st) := by
  cases st with
  | caseLabel pos label => exact .one isOperand_cellSize
  | _ => exact .nil

variable {slot : Option Int}

theorem allFit_return (hc : c.analysis.structs.Narrow) (hslot : ∀ size ∈ slot, IsOperand size)
    {value : Option Expr} (h : ∀ e ∈ value, FewArgs e.parts) : AllFit (c.returnEvents slot value) := by
  unfold returnEvents
  split
  · exact (allFit_expr hc (h _ rfl)).append (.one (hslot _ rfl))
  · exact .nil

theorem allFit_stmts (h : ∀ st ∈ body, AllFit (c.stmtEvents slot st)) :
    AllFit (c.stmtsEvents slot body) := by
  rw [stmtsEvents_eq_flatMap]
  exact .flatMap h

/-- **The events of a statement fit** under the same conditions. -/
theorem allFit_stmt (hc : c.analysis.structs.Narrow) (hslot : ∀ size ∈ slot, IsOperand size)
    {st : Stmt} (h : ∀ e ∈ st.exprs, FewArgs e.parts) : AllFit (c.stmtEvents slot st) := by
  induction st using Stmt.inductionOn with
  | block pos body ih =>
    rw [stmtEvents]
    exact allFit_stmts fun st hst => ih st hst fun e he => h e (Stmt.exprs_subset hst he)
  | var pos decl =>
    rw [stmtEvents]
    refine .flatMap fun d hd => allFit_decl hc fun e he => h e ?_
    exact mem_flatMap.mpr ⟨d, hd, mem_toList.mpr he⟩
  | expr pos e =>
    rw [stmtEvents]
    exact allFit_expr hc (h e (mem_singleton_self e))
  | ifThen pos cond yes ih =>
    obtain ⟨hcond, hyes⟩ := forall_mem_cons.mp h
    rw [stmtEvents]
    exact (allFit_expr hc hcond).append (ih hyes)
  | ifElse pos cond yes no ihy ihn =>
    obtain ⟨hcond, hrest⟩ := forall_mem_cons.mp h
    obtain ⟨hyes, hno⟩ := forall_mem_append.mp hrest
    rw [stmtEvents]
    exact ((allFit_expr hc hcond).append (ihy hyes)).append (ihn hno)
  | whileLoop pos cond body ih =>
    obtain ⟨hcond, hbody⟩ := forall_mem_cons.mp h
    rw [stmtEvents]
    exact (allFit_expr hc hcond).append (ih hbody)
  | doWhile pos body cond ih =>
    obtain ⟨hbody, hcond⟩ := forall_mem_append.mp h
    rw [stmtEvents]
    exact (ih hbody).append (allFit_expr hc (hcond cond (mem_singleton_self cond)))
  | forLoop pos init cond next body ih =>
    have hparts (e : Option Expr) (he : e.toList ⊆ (Stmt.forLoop pos init cond next body).exprs) :
        AllFit (c.optionalEvents e) :=
      allFit_optional hc fun e' he' => h e' (he (mem_toList.mpr he'))
    have hbody := ih fun e he => h e (by simp [Stmt.exprs, he])
    rw [stmtEvents]
    refine (((hparts init ?_).append (hparts cond ?_)).append hbody).append (hparts next ?_)
    all_goals
      intro e he
      simp [Stmt.exprs, mem_append, he]
  | switch pos value body ih =>
    obtain ⟨hvalue, hbody⟩ := forall_mem_cons.mp h
    rw [stmtEvents]
    refine ((allFit_expr hc hvalue).append (.flatMap fun st _ => allFit_test st)).append ?_
    exact allFit_stmts fun st hst => ih st hst fun e he => hbody e (Stmt.exprs_subset hst he)
  | ret pos value =>
    rw [stmtEvents]
    exact allFit_return hc hslot fun e he => h e (mem_toList.mpr he)
  | caseLabel pos label | defaultLabel pos | breakOut pos | continueLoop pos | empty pos =>
    rw [stmtEvents]
    exact .nil

theorem slotSize_isOperand (hc : c.analysis.structs.Narrow) (info : FuncInfo) :
    ∀ size ∈ c.slotSize info, IsOperand size := by
  intro size hsize
  unfold slotSize at hsize
  split at hsize
  · exact Option.some.inj hsize ▸ hc.size info.ret
  · cases hsize

theorem allFit_body (hc : c.analysis.structs.Narrow) (hargs : FewArgs items.exprs) {index : Nat}
    {decl : FunctionDecl} (hitem : items[index]? = some (.function decl body)) (info : FuncInfo) :
    AllFit (c.stmtsEvents (c.slotSize info) body) :=
  allFit_stmts fun _ hst => allFit_stmt hc (slotSize_isOperand hc info) fun _ he =>
    ArgCounts.subset hargs (parts_subset_of_item (mem_of_getElem? hitem) (Stmt.exprs_subset hst he))

theorem allFit_globals (hc : c.analysis.structs.Narrow) (hargs : FewArgs items.exprs) :
    AllFit (c.globalsEvents items) := by
  have hentry : AllFit (entryEvents c.analysis.entry) := by
    unfold entryEvents
    split
    · exact .nil
    · split
      · exact .one trivial
      · exact forall_mem_cons.mpr ⟨trivial, AllFit.one isOperand_cellSize⟩
  refine AllFit.append (.flatMap fun decl hdecl => allFit_decl hc fun e he => ?_) hentry
  obtain ⟨item, hitem, hexprs⟩ := mem_item_of_globalDeclarators hdecl
  exact ArgCounts.subset hargs (parts_subset_of_item hitem (hexprs e he))

end GenContext

/-! ## Lines of a unit -/

structure EventLines (R : Event → Op → Prop) (c : GenContext) (program : Program) (code : Code)
    (init : List Routine) (placed : List PlacedRoutine) : Prop where
  routines : ∃ loader, code.routines = loader :: init ++ placed.map PlacedRoutine.routine ∧
    ∀ op ∈ loader.ops, op.isEvent = true → ∃ label, op = .jump .call label
  functions : ∀ p ∈ placed, ∃ decl body info, c.analysis.definition? p.func = some p.index ∧
    program[p.index]? = some (.function decl body) ∧ c.analysis.functions[p.func]? = some info ∧
    p.routine.name = info.name ∧
    List.Forall₂ R (c.stmtsEvents (c.slotSize info) body) (p.routine.ops.filter Op.isEvent)
  initNames : init.map Routine.name = if 0 < code.globalsSize then [globalsName] else []
  globals : ∀ g ∈ init, List.Forall₂ R (c.globalsEvents program) (g.ops.filter Op.isEvent)

namespace EventLines

variable {R R' : Event → Op → Prop} {c : GenContext} {program : Program} {code : Code}
  {init : List Routine} {placed : List PlacedRoutine}

theorem imp (h : EventLines R c program code init placed) (himp : ∀ event op, R event op → R' event op) :
    EventLines R' c program code init placed where
  routines := h.routines
  functions p hp := by
    obtain ⟨decl, body, info, hdefinition, hitem, hinfo, hname, hevents⟩ := h.functions p hp
    exact ⟨decl, body, info, hdefinition, hitem, hinfo, hname, hevents.imp himp⟩
  initNames := h.initNames
  globals g hg := (h.globals g hg).imp himp

theorem fits (h : EventLines R c program code init placed) (hc : c.analysis.structs.Narrow)
    (hargs : FewArgs program.exprs) :
    EventLines (fun event op => event.Fits ∧ R event op) c program code init placed where
  routines := h.routines
  functions p hp := by
    obtain ⟨decl, body, info, hdefinition, hitem, hinfo, hname, hevents⟩ := h.functions p hp
    have hfit := GenContext.allFit_body hc hargs hitem info
    exact ⟨decl, body, info, hdefinition, hitem, hinfo, hname, (forall₂_and_left _ _).mpr ⟨hfit, hevents⟩⟩
  initNames := h.initNames
  globals g hg := (forall₂_and_left _ _).mpr ⟨GenContext.allFit_globals hc hargs, h.globals g hg⟩

end EventLines

theorem Assembly.loader_events (A : Assembly) {op : Op} (hop : op ∈ A.loader.ops)
    (hevent : op.isEvent = true) : ∃ label, op = .jump .call label := by
  rcases Outline.mem_loader.mp hop with rfl | hop | hop | rfl
  · cases hevent
  · unfold loaderResult at hop
    split at hop
    · split at hop
      · obtain rfl := mem_singleton.mp hop
        cases hevent
      · cases hop
    · cases hop
  · unfold loaderCall at hop
    split at hop
    · exact ⟨_, mem_singleton.mp hop⟩
    · exact ⟨_, mem_singleton.mp hop⟩
    · cases hop
  · cases hevent

theorem Outline.eventLines {c : GenContext} {A : Assembly} (h : Outline c items labels A) :
    EventLines (Event.Line labels) c items ⟨A.routines, c.globals.size, A.entry.map Prod.snd⟩
      A.init.toList A.functions where
  routines := ⟨A.loader, rfl, fun _ => A.loader_events⟩
  functions p hp := by
    have hp := h.functions p hp
    obtain ⟨decl, body, info, hitem, hinfo, hname, hevents⟩ := hp.code
    exact ⟨decl, body, info, hp.definition, hitem, hinfo, hname, hevents⟩
  initNames := h.initNames
  globals g hg := (h.init g (mem_toList.mp hg)).events

namespace Accepted

/-- **Operands are exact where they can be.** The lines of a program without errors that copy, compare,
cut or call are those of its tree, one for each event. The operands of a line are the sizes, the offset
and the number of arguments that the tree gives, exactly if these fit into the operands; and they all
do if no structure takes up 65536 bytes and no call has more than 255 arguments. -/
theorem operands_exact_iff_fits {engine : EngineTable} {program : Program} {code : Code}
    (h : Accepted engine program)
    (hcode : generate engine program (check engine program).analysis = .ok code) : ∃ labels init placed,
      EventLines (fun event op => event.Line labels op ∧ (event.Exact op ↔ event.Fits))
        (context engine program) program code init placed ∧
      ((check engine program).analysis.structs.Small → FewArgs program.exprs →
        EventLines Event.Exact (context engine program) program code init placed) := by
  obtain ⟨labels, A, hA, rfl⟩ := outline_of_generate hcode
  have hlines := hA.eventLines
  refine ⟨labels, A.init.toList, A.functions, hlines.imp fun _ _ hline => ⟨hline, hline.exact_iff_fits⟩,
    fun hsmall hargs => ?_⟩
  have hnarrow := hsmall.narrow h.programOk.structs
  refine (hlines.fits hnarrow hargs).imp ?_
  rintro event op ⟨hfits, hline⟩
  exact hline.exact_iff_fits.mpr hfits

theorem operands_exact_iff_fits_sample : ∃ code,
    generate Sample.engine Sample.program (check Sample.engine Sample.program).analysis = .ok code ∧
    ∃ init placed, EventLines Event.Exact (context Sample.engine Sample.program) Sample.program code
      init placed := by
  obtain ⟨code, hcode⟩ := Sample.generated
  obtain ⟨labels, init, placed, -, hexact⟩ := operands_exact_iff_fits Sample.accepted hcode
  exact ⟨code, hcode, init, placed, hexact Sample.small Sample.fewArgs⟩

end Accepted

/-! ## A size that is cut -/

namespace Gen

/-- A run ends with `Q`. -/
abbrev Runs {α : Type} (g : Gen α) (s : GenState) (Q : α → GenState → Prop) : Prop :=
  Ends (fun _ => False) g s Q

section Runs

variable {α : Type} {s : GenState} {Q : α → GenState → Prop}

@[simp] theorem runs_orFault {fault : GenFault} {a : α} :
    Runs (orFault fault (some a)) s Q ↔ Q a s := Iff.rfl

@[simp] theorem runs_fit {bytes : Int} {Q : Int → GenState → Prop} :
    Runs (fit bytes) s Q ↔ Fits bytes ∧ Q bytes s := by
  unfold fit
  split
  · rename_i hfits
    exact (and_iff_right hfits).symm
  · rename_i hfits
    exact ⟨False.elim, fun h => hfits h.1⟩

@[simp] theorem runs_emit {i : Instr} {Q : List Op → GenState → Prop} : Runs (emit i) s Q ↔
    Fits (s.depth + i.effect?.getD 0) ∧ Q [.instr i] { s with depth := s.depth + i.effect?.getD 0 } := by
  simp only [emit, addDepth, setDepth, ends_bind, ends_depth, runs_fit, ends_modify, ends_pure]

/-- A run that pushes bytes, as far as 32 bits go. -/
def Raises (g : Gen (List Op)) (size : Int) : Prop := 0 ≤ size ∧ ∀ s : GenState, 0 ≤ s.depth →
  Fits (s.depth + size) → Runs g s fun _ s' => s' = { s with depth := s.depth + size }

theorem raises_reserve (type : UInt8) : Raises (emit (.reserve type)) cellSize :=
  ⟨by decide, fun _ _ hfits => runs_emit.mpr ⟨hfits, rfl⟩⟩

theorem raises_sequence {gs : List (Gen (List Op))} (h : ∀ g ∈ gs, Raises g size) (hsize : 0 ≤ size) :
    Raises (sequence gs) (gs.length * size) := by
  induction gs with
  | nil =>
    refine ⟨by simp, fun s _ _ => ?_⟩
    simp [sequence]
  | cons g gs ih =>
    obtain ⟨⟨-, hg⟩, hgs⟩ := forall_mem_cons.mp h
    obtain ⟨hlength, hrest⟩ := ih hgs
    have hsum : ((g :: gs).length : Int) * size = size + gs.length * size := by
      rw [length_cons, Int.natCast_succ, Int.add_mul, Int.one_mul, Int.add_comm]
    rw [hsum]
    refine ⟨by omega, fun s hlo hfits => ?_⟩
    unfold Fits at hrest hfits hg
    simp only [sequence, ends_bind, ends_pure]
    refine (hg s hlo (by omega)).mono ?_
    rintro first s₁ rfl
    refine (hrest _ (by dsimp only; omega) (by dsimp only; omega)).mono ?_
    rintro later s₂ rfl
    simp [Int.add_assoc]

theorem raises_struct {d : StructDef} {older : List StructDef} (hsize : 0 ≤ size)
    (h : ∀ f ∈ d.fields, Raises (reserveIn older f.type) size) :
    Raises (reserveIn (d :: older) (.struct d.name)) (d.fields.length * size) := by
  rw [reserveIn, if_pos rfl]
  have hfields : ∀ g ∈ d.fields.map (fun f => reserveIn older f.type), Raises g size := by simpa using h
  simpa using raises_sequence hfields hsize

end Runs

end Gen

namespace Sample

def fourTokens (name : String) (type : List Token) : List Token :=
  [token (.keyword .kwStruct) "", nameToken name, symbolToken .leftBrace] ++ type ++
    [nameToken "p", symbolToken .comma, nameToken "q", symbolToken .comma, nameToken "r",
      symbolToken .comma, nameToken "s", symbolToken .semicolon, symbolToken .rightBrace,
      symbolToken .semicolon]

def structTokens (name : String) : List Token := [token (.keyword .kwStruct) "", nameToken name]

def wideTokens : List Token :=
  fourTokens "a" [token (.keyword .kwInt) ""] ++ fourTokens "b" (structTokens "a") ++
  fourTokens "c" (structTokens "b") ++ fourTokens "d" (structTokens "c") ++
  fourTokens "e" (structTokens "d") ++ fourTokens "f" (structTokens "e") ++
  fourTokens "g" (structTokens "f") ++
  [token (.keyword .kwVoid) "", nameToken "main", symbolToken .leftParen, symbolToken .rightParen,
    symbolToken .leftBrace] ++ structTokens "g" ++ [nameToken "x", symbolToken .semicolon, nameToken "x",
    symbolToken .semicolon, symbolToken .rightBrace]

def wideParsed : Parsed := parse engine.typeNames wideTokens

def wideProgram : Program := wideParsed.program

def four (name : String) (type : Ty) (size : Int) : StructDef :=
  ⟨name, [⟨"p", type⟩, ⟨"q", type⟩, ⟨"r", type⟩, ⟨"s", type⟩], size⟩

def wideStructs : List StructDef :=
  [four "g" (.struct "f") 65536, four "f" (.struct "e") 16384, four "e" (.struct "d") 4096,
    four "d" (.struct "c") 1024, four "c" (.struct "b") 256, four "b" (.struct "a") 64,
    four "a" .int 16]

def wideBody : List Stmt :=
  [.var {} ⟨{}, false, .struct "g", [⟨⟨0, {}⟩, "x", none⟩]⟩, .expr {} (.ident ⟨1, {}⟩ "x")]

def wideMain : Item := .function ⟨{}, .void, "main", []⟩ wideBody

set_option maxRecDepth 20000 in
theorem wide_main : wideProgram[7]? = some wideMain := by cbv

structure WideFacts (a : Analysis) : Prop where
  type : a.types.get? 1 = some (.struct "g")
  const : a.consts.get? 1 = none
  ref : a.refs.get? 1 = some 0
  decl : a.decls.get? 0 = some 0
  var : a.vars[0]? = some ⟨"x", .struct "g", .local, false, none, {}⟩
  globals : a.globals = []
  functions : a.functions = #[⟨"main", .void, [], true, {}⟩]
  definition : a.definition? 0 = some 7
  structs : a.structs.defs = wideStructs
  entry : a.entry = some ⟨0, .main⟩
  size : a.sizeOf (.struct "g") = 65536

theorem wide_facts : WideFacts (check engine wideProgram).analysis := by
  constructor <;> decide +kernel

theorem wide_checked : wideParsed.errors.isEmpty = true ∧
    (check engine wideProgram).findings.isEmpty = true := by decide +kernel

theorem raises_wide : Raises (reserveIn wideStructs (.struct "g")) 65536 := by
  have hint : Raises (reserveIn [] .int) 4 := raises_reserve _
  have hfour {name : String} {type : Ty} {size bytes : Int} {older : List StructDef}
      (h : Raises (reserveIn older type) bytes) :
      Raises (reserveIn (four name type size :: older) (.struct name)) (4 * bytes) :=
    raises_struct (d := four name type size) h.1 (by simpa [four] using h)
  rw [wideStructs]
  exact hfour (hfour (hfour (hfour (hfour (hfour (hfour hint))))))

variable {a : Analysis}

theorem runs_wideBody (h : WideFacts a) {globals : GlobalLayout} {f : Frame} {s : GenState}
    (hs : s.depth = 0) : Runs (block ⟨a, engine, globals⟩ f wideBody) s fun _ s' =>
      s' = { s with locals := (0, 0) :: s.locals } := by
  have hfits : Fits 65536 := ⟨by decide, by decide⟩
  have hback : Fits (-65536) := ⟨by decide, by decide⟩
  have hzero : Fits 0 := ⟨by decide, by decide⟩
  have hload (base : Base) (offset : Int32) :
      (Instr.copyTop base offset (.ofInt 65536)).effect?.getD 0 = 0 := rfl
  have hpop : (-65536 : Int).bmod Int32.size = -65536 := by decide
  simp only [block, nested, wideBody, stmts, stmt, Gen.sequence, map_cons, map_nil, declareVar,
    declVar, varInfo, h.decl, h.var, reserve, h.structs, ends_bind, ends_depth, runs_orFault, ends_pure]
  refine (raises_wide.2 s (by omega) (by rw [hs]; exact hfits)).mono ?_
  rintro cells _ rfl
  simp only [initVar, discarded, expr, Expr.id, Expr.node, h.const, varRef, h.ref, varInfo, h.var, load,
    address, slot, typeOf, h.type, h.size, moveSp, popTo, ends_bind, ends_pure, runs_orFault, ends_get,
    ends_modify, ends_depth, runs_emit, hs, hload, lookup_cons]
  simp [hfits, hback, hzero, hpop]

theorem runs_wideProgram (h : WideFacts a) :
    Runs (Gen.program ⟨a, engine, .ofAnalysis a⟩ wideProgram) {} fun _ _ => True := by
  have hlayout : GlobalLayout.ofAnalysis a = {} := by
    rw [GlobalLayout.ofAnalysis, h.globals]
    rfl
  simp [Gen.program, entryLabel, globalsLabel, loader, initRoutines, drain, h.entry, hlayout, funcLabel,
    h.functions, function, h.definition, wide_main, wideMain, paramSlots, begin_]
  refine (runs_wideBody h rfl).mono ?_
  rintro ops _ rfl
  simp [mark, Gen.bind, checkDepth]

theorem wide_accepted : Accepted engine wideProgram where
  table := ⟨_, _, engine_ofSource⟩
  parsed := ⟨wideTokens, List.isEmpty_iff.mp wide_checked.1, rfl⟩
  checked f hf := by
    rw [List.isEmpty_iff.mp wide_checked.2] at hf
    cases hf

theorem WideFacts.generated (h : WideFacts a) : ∃ code, generate engine wideProgram a = .ok code := by
  obtain ⟨code, s, hrun, -⟩ | ⟨_, _, hfalse⟩ := (runs_wideProgram h).ok_or_error
  · exact ⟨code, by simp only [generate, hrun]⟩
  · exact hfalse.elim

theorem wide_events : (Accepted.context engine wideProgram).functionEvents wideProgram 0 = [.load 65536] := by
  decide +kernel

theorem wide_routine {A : Assembly}
    (h : Outline (Accepted.context engine wideProgram) wideProgram labels A) : ∃ r ∈ A.routines,
      ∃ base offset, r.ops.filter Op.isEvent = [.instr (.copyTop base offset 0)] := by
  have hentry := h.entry
  simp only [Accepted.context, wide_facts.entry] at hentry
  obtain ⟨found, hfound, hfst⟩ := map_eq_some_iff.mp hentry
  obtain ⟨p, hp, hfunc, -⟩ := h.exists_function (h.entryLabel found hfound)
  have hevents := (h.functions p hp).events
  rw [hfunc, hfst, wide_events] at hevents
  refine ⟨p.routine, Outline.mem_routines.mpr (.inr (.inr ⟨p, hp, rfl⟩)), ?_⟩
  generalize p.routine.ops.filter Op.isEvent = ops at hevents
  cases hevents with
  | cons hline hrest =>
    cases hrest
    cases hline with
    | load base offset => exact ⟨base, offset, rfl⟩

end Sample

/-- **A size is cut**: the variable that the entry function reads takes up 65536 bytes, and the one
copy in the code has the operand zero. -/
theorem Accepted.operand_cut : ∃ program code func, Accepted Sample.engine program ∧
    generate Sample.engine program (check Sample.engine program).analysis = .ok code ∧
    (context Sample.engine program).functionEvents program func = [.load 65536] ∧
    ∃ r ∈ code.routines, ∃ base offset, r.ops.filter Op.isEvent = [.instr (.copyTop base offset 0)] := by
  obtain ⟨code, hcode⟩ := Sample.wide_facts.generated
  obtain ⟨labels, A, hA, rfl⟩ := outline_of_generate hcode
  exact ⟨Sample.wideProgram, _, 0, Sample.wide_accepted, hcode, Sample.wide_events, Sample.wide_routine hA⟩

end Nwscript
