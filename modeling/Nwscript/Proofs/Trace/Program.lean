import Nwscript.Proofs.Code.Accepted
import Nwscript.Proofs.Trace.Stmt

/-! # Events of programs

Functions are found while others are generated, and wait in a queue. Whatever waits has a label, and
has been called by a line that was written before; so at the end every function with a label has one
routine, and the calls lead to it from the start of the unit. -/

open List

namespace Nwscript

open GenState (Same Grows)

/-! ## Functions -/

/-- The size of the slot for the result of a function. Results that take no storage have none. -/
def GenContext.slotSize (c : GenContext) (info : FuncInfo) : Option Int :=
  if 0 < c.analysis.sizeOf info.ret then some (c.analysis.sizeOf info.ret) else none

def Routine.JumpsWithin (r : Routine) : Prop :=
  ∀ kind label, Op.jump kind label ∈ r.ops → kind ≠ .call → label ∈ marks r.ops.tail

theorem Emits.jumps_mem {own spare : List Label} {events : List Event} {s s' : GenState}
    {ops : List Op} (h : Emits [] own spare events s ops s') {kind : JumpKind} {label : Label}
    (hjump : Op.jump kind label ∈ ops) (hkind : kind ≠ .call) : label ∈ marks ops := by
  obtain ⟨new, fresh, h⟩ := h
  exact (h.jumps kind label hjump hkind).resolve_left not_mem_nil

/-- A routine is the code of a function: it begins with the label of the function, jumps to marks of
its own, and has the events of the body. -/
structure Gen.PlacedRoutine.IsCode (c : GenContext) (items : Program)
    (labels : List (FuncId × Label)) (p : PlacedRoutine) : Prop where
  labelled : (p.func, p.routine.label) ∈ labels
  definition : c.analysis.definition? p.func = some p.index
  begins : p.routine.ops.head? = some (.mark p.routine.label)
  jumps : p.routine.JumpsWithin
  code : ∃ decl body info, items[p.index]? = some (.function decl body) ∧
    c.analysis.functions[p.func]? = some info ∧ p.routine.name = info.name ∧
    List.Forall₂ (Event.Line labels) (c.stmtsEvents (c.slotSize info) body)
      (p.routine.ops.filter Op.isEvent)

variable {s : GenState} {labels : List (FuncId × Label)} {label : Label}
  {entry : Option (EntryPoint × Label)}

namespace Gen

variable {c : GenContext} {items : Program}

theorem PlacedRoutine.IsCode.mono {labels' : List (FuncId × Label)} {p : PlacedRoutine}
    (h : p.IsCode c items labels) (hs : labels ⊆ labels') : p.IsCode c items labels' := by
  obtain ⟨decl, body, info, hitem, hinfo, hname, hevents⟩ := h.code
  exact ⟨hs h.labelled, h.definition, h.begins, h.jumps,
    decl, body, info, hitem, hinfo, hname, hevents.imp fun _ _ hline => hline.mono hs⟩

theorem yields_funcLabel_known {func : FuncId} (h : s.funcLabels.lookup func = some label) :
    Yields (funcLabel func) s fun l s' => l = label ∧ s' = s := by
  refine ends_bind.mpr (ends_get.mpr ?_)
  rw [h]
  exact (ends_pure label).mpr ⟨rfl, rfl⟩

theorem quiet_paramSlots (bottom : Int) (params : List Param) : Quiet (paramSlots c bottom params) := by
  induction params generalizing bottom with
  | nil => exact quiet_pure _
  | cons p params ih =>
    refine (quiet_orFault _ _).bind fun var => (quiet_orFault _ _).bind fun info => ?_
    exact (quiet_fit _).bind fun below => (ih below).bind fun _ => quiet_pure _

theorem quiet_begin (locals : List (VarId × Int)) : Quiet (begin_ locals) :=
  quiet_modify fun _ => ⟨rfl, rfl, rfl⟩

theorem resultSize_functionFrame (info : FuncInfo) (bottom : Int) (exit : Label) :
    (functionFrame c info bottom exit).resultSize = c.slotSize info := by
  unfold functionFrame Frame.resultSize GenContext.slotSize
  dsimp only
  split <;> rfl

theorem emits_popParams (bottom : Int) (s : GenState) : Emits [] [] [] [] s (popParams bottom) s := by
  unfold popParams
  split
  · exact .instr (.refl s) rfl
  · exact .quiet (.refl s)

theorem yields_function {func : FuncId} {index : Nat} (hlabel : s.funcLabels.lookup func = some label)
    (hdef : c.analysis.definition? func = some index) :
    Yields (function c items func index) s fun routine s' => routine.label = label ∧
      (∃ events, Emits [] [label] [] events s routine.ops s') ∧
      PlacedRoutine.IsCode c items s'.funcLabels ⟨func, index, routine⟩ := by
  unfold function
  split
  · rename_i decl body hitem
    refine .found fun info hinfo => (yields_funcLabel_known hlabel).bind ?_
    rintro l s₁ ⟨rfl, rfl⟩
    refine (quiet_paramSlots 0 decl.params s₁).bind fun slots s₂ h₂ => ?_
    obtain ⟨slots, bottom⟩ := slots
    refine (quiet_begin slots s₂).bind fun _ s₃ h₃ => (yields_newLabel s₃).bind fun exit s₄ h₄ => ?_
    refine (writes_block body s₄).bind fun ops s₅ h₅ => (yields_mark exit s₅).bind fun here s₆ h₆ => ?_
    refine (quiet_checkDepth 0 info.name s₆).bind fun _ s₇ h₇ => (ends_pure _).mpr ?_
    have hbody : Emits [] [] [] (c.stmtsEvents (c.slotSize info) body) s₁ (ops ++ here) s₆ := by
      have hlines := ((h₄.after (h₂.trans h₃)).append h₅).append h₆
      refine (hlines.settle (.refl _) fun label hmem => ?_).of_events ?_
      · grind [functionFrame]
      · rw [resultSize_functionFrame]
        simp
    have htail : Emits [] [] [] (c.stmtsEvents (c.slotSize info) body) s₁
        (ops ++ here ++ popParams bottom ++ [Op.instr .ret]) s₇ := by
      have hret : Emits [] [] [] [] s₇ [Op.instr .ret] s₇ := .instr (.refl s₇) rfl
      have hlines := (hbody.append ((emits_popParams bottom s₆).before h₇)).append hret
      exact hlines.of_events (by simp)
    have hall : Emits [] [l] [] (c.stmtsEvents (c.slotSize info) body) s₁
        ([Op.mark l] ++ ops ++ here ++ popParams bottom ++ [Op.instr .ret]) s₇ :=
      ((Emits.mark l (.refl s₁)).append htail).of_ops (by simp)
    obtain ⟨new, fresh, hcode⟩ := hall
    refine ⟨rfl, ⟨_, new, fresh, hcode⟩, ?_, hdef, rfl, fun kind label hmem hkind => ?_,
      decl, body, info, hitem, hinfo, rfl, hcode.events⟩
    · obtain ⟨before, after, hlabels, -⟩ := lookup_eq_some_iff.mp hlabel
      rw [hcode.grows.labels, hlabels]
      simp
    · exact htail.jumps_mem (by simpa using hmem) hkind
  · exact yields_throw _

/-! ## The queue -/

end Gen

structure GenState.Ready (s : GenState) : Prop where
  once : (s.funcLabels.map Prod.fst).Nodup
  waiting : ∀ func ∈ s.queue, func ∈ s.funcLabels.map Prod.fst

theorem GenState.Ready.grows {new : List (FuncId × Label)} {s' : GenState} (h : s.Ready)
    (hg : Grows new s s') : s'.Ready where
  once := by
    rw [hg.labels, map_append]
    exact nodup_append'.mpr ⟨hg.once, h.once, fun func hnew hold => hg.absent func hnew hold⟩
  waiting := by
    intro func hfunc
    rw [hg.queue] at hfunc
    rw [hg.labels, map_append]
    rcases mem_append.mp hfunc with hfunc | hfunc
    · exact mem_append_right _ (h.waiting func hfunc)
    · exact mem_append_left _ (mem_reverse.mp hfunc)

/-- The routines of the functions that wait, and of the functions `new` that they lead to. -/
structure QueueRun (c : GenContext) (items : Program) (new : List (FuncId × Label))
    (fresh : List Label) (s : GenState) (placed : List Gen.PlacedRoutine) (s' : GenState) : Prop where
  labels : s'.funcLabels = new ++ s.funcLabels
  once : (s'.funcLabels.map Prod.fst).Nodup
  funcs : placed.map Gen.PlacedRoutine.func = s.queue ++ (new.map Prod.fst).reverse
  between : Between s.nextLabel s'.nextLabel (fresh ++ new.map Prod.snd)
  marks : (placed.flatMap fun p => marks p.routine.ops).Perm
    (placed.map (fun p => p.routine.label) ++ fresh)
  code : ∀ p ∈ placed, p.IsCode c items s'.funcLabels
  /-- What holds of the functions that wait and is passed on by calls holds of all. -/
  reached : ∀ P : Routine → Prop, (∀ p ∈ placed, p.func ∈ s.queue → P p.routine) →
    (∀ r, ∀ p ∈ placed, P r → Op.jump .call p.routine.label ∈ r.ops → P p.routine) →
    ∀ p ∈ placed, P p.routine

namespace QueueRun

variable {c : GenContext} {items : Program} {s s₁ s₂ : GenState}

theorem nil (hs : s.Ready) (hqueue : s.queue = []) : QueueRun c items [] [] s [] s where
  labels := rfl
  once := hs.once
  funcs := by simp [hqueue]
  between := .nil (Nat.le_refl _)
  marks := .refl _
  code := by simp
  reached := by simp

/-- The first function of the queue, and then the others with those that it calls. -/
theorem cons {new new' : List (FuncId × Label)} {fresh fresh' : List Label} {events : List Event}
    {p : Gen.PlacedRoutine} {rest : List Gen.PlacedRoutine} {queue : List FuncId}
    (hqueue : s.queue = p.func :: queue)
    (hp : Emission new fresh [] [p.routine.label] [] events { s with queue } p.routine.ops s₁)
    (hcode : p.IsCode c items s₁.funcLabels) (hrest : QueueRun c items new' fresh' s₁ rest s₂) :
    QueueRun c items (new' ++ new) (fresh ++ fresh') s (p :: rest) s₂ where
  labels := by rw [hrest.labels, hp.grows.labels, append_assoc]
  once := hrest.once
  funcs := by
    have hfirst : s₁.queue = queue ++ (new.map Prod.fst).reverse := hp.grows.queue
    simp [hrest.funcs, hfirst, hqueue]
  between := by
    refine (hp.between.append hrest.between).perm ?_
    rw [map_append, perm_iff_count]
    intro label
    simp only [count_append, count_nil]
    omega
  marks := by
    rw [flatMap_cons, map_cons]
    refine (hp.marks.append hrest.marks).trans ?_
    rw [perm_iff_count]
    intro label
    simp only [count_append, count_cons, count_nil]
    omega
  code := by
    refine forall_mem_cons.mpr ⟨hcode.mono ?_, hrest.code⟩
    rw [hrest.labels]
    exact subset_append_right _ _
  reached := by
    intro P hwaiting hcalls
    have hfirst : P p.routine := hwaiting p mem_cons_self (by simp [hqueue])
    refine forall_mem_cons.mpr ⟨hfirst, hrest.reached P (fun q hq hfunc => ?_) ?_⟩
    · have hnow : s₁.queue = queue ++ (new.map Prod.fst).reverse := hp.grows.queue
      rw [hnow, mem_append, mem_reverse] at hfunc
      rcases hfunc with hfunc | hfunc
      · exact hwaiting q (.tail _ hq) (by simp [hqueue, hfunc])
      · -- the function is new, so the routine in front calls its label
        obtain ⟨pair, hpair, hfst⟩ := mem_map.mp hfunc
        have hlabel : pair.2 = q.routine.label := by
          have hq' := (hrest.code q hq).labelled
          have hpair' : (q.func, pair.2) ∈ s₂.funcLabels := by
            rw [hrest.labels, hp.grows.labels, ← hfst]
            exact mem_append_right _ (mem_append_left _ hpair)
          exact inj_on_of_nodup_map hrest.once hpair' hq' rfl |> congrArg Prod.snd
        refine hcalls p.routine q (.tail _ hq) hfirst ?_
        rw [← hlabel]
        exact hp.called pair hpair
    · exact fun r q hq => hcalls r q (.tail _ hq)

end QueueRun

namespace Gen

variable {c : GenContext} {items : Program}

theorem yields_drain (steps : Nat) (hs : s.Ready) : Yields (drain c items steps) s fun placed s' =>
      ∃ new fresh, QueueRun c items new fresh s placed s' := by
  induction steps generalizing s with
  | zero =>
    refine ends_bind.mpr (ends_get.mpr ?_)
    split
    · rename_i hempty
      exact (ends_pure _).mpr ⟨[], [], .nil hs (List.isEmpty_iff.mp hempty)⟩
    · exact yields_throw _
  | succ steps ih =>
    refine ends_bind.mpr (ends_get.mpr ?_)
    split
    · rename_i hempty
      exact (ends_pure _).mpr ⟨[], [], .nil hs hempty⟩
    · rename_i func queue hqueue
      obtain ⟨pair, hpair, rfl⟩ := mem_map.mp (hs.waiting func (by simp [hqueue]))
      have hlabel : ({ s with queue } : GenState).funcLabels.lookup pair.1 = some pair.2 :=
        (lookup_eq_some_of_nodup hs.once).mpr hpair
      have hready : ({ s with queue } : GenState).Ready :=
        ⟨hs.once, fun func hfunc => hs.waiting func (by simp [hqueue, hfunc])⟩
      refine ends_bind.mpr (ends_modify.mpr ?_)
      refine .found fun index hindex => ?_
      refine (yields_function hlabel hindex).bind ?_
      rintro routine s₂ ⟨hrlabel, ⟨events, new, fresh, hcode⟩, hplaced⟩
      refine (ih (hready.grows hcode.grows)).bind ?_
      rintro rest s₃ ⟨new', fresh', hrest⟩
      rw [← hrlabel] at hcode
      exact (ends_pure _).mpr ⟨_, _, .cons hqueue hcode hplaced hrest⟩

end Gen

/-! ## Global variables -/

def entryEvents : Option EntryPoint → List Event
  | none => []
  | some entry =>
    match entry.kind with
    | .main => [.call none entry.func]
    | .startingConditional => [.call none entry.func, .store cellSize]

def GenContext.globalsEvents (c : GenContext) (items : Program) : List Event :=
  (Gen.globalDeclarators items).flatMap c.declEvents ++ entryEvents c.analysis.entry

/-- The routine for the global variables runs their initializers and calls the entry function. -/
structure Routine.IsGlobals (c : GenContext) (items : Program) (entry : Option (EntryPoint × Label))
    (labels : List (FuncId × Label)) (r : Routine) : Prop where
  name : r.name = globalsName
  begins : r.ops.head? = some (.mark r.label)
  jumps : r.JumpsWithin
  calls : ∀ e ∈ entry, Op.jump .call e.2 ∈ r.ops
  events : List.Forall₂ (Event.Line labels) (c.globalsEvents items) (r.ops.filter Op.isEvent)

theorem Routine.IsGlobals.mono {c : GenContext} {items : Program} {labels' : List (FuncId × Label)}
    {r : Routine} (h : r.IsGlobals c items entry labels) (hs : labels ⊆ labels') :
    r.IsGlobals c items entry labels' :=
  ⟨h.name, h.begins, h.jumps, h.calls, h.events.imp fun _ _ hline => hline.mono hs⟩

theorem Emits.labels_subset {outer own spare : List Label} {events : List Event} {s' : GenState}
    {ops : List Op} (h : Emits outer own spare events s ops s') : s.funcLabels ⊆ s'.funcLabels := by
  obtain ⟨new, fresh, h⟩ := h
  rw [h.grows.labels]
  exact subset_append_right _ _

namespace Gen

variable {c : GenContext} {items : Program}

theorem writes_reserveGlobal (decl : Declarator) : Writes (reserveGlobal c decl) [] [] :=
  .found fun _ _ => .found fun _ _ => writes_reserve _

theorem writes_initGlobal (f : Frame) (decl : Declarator) :
    Writes (initGlobal c f decl) [] (c.declEvents decl) := by
  unfold initGlobal GenContext.declEvents
  cases decl.init with
  | none => exact writes_nil
  | some init =>
    refine .found fun var hvar => .found fun info hinfo s => ?_
    rw [declSize_eq hvar hinfo]
    refine (writes_expr init s).bind fun _ s₁ h₁ => (writes_store var 0 _ s₁).bind fun _ s₂ h₂ => ?_
    refine (writes_moveSp _ s₂).bind fun _ s₃ h₃ => (ends_pure _).mpr ?_
    exact ((h₁.append h₂).append h₃).of_events (append_nil _)

theorem yields_callEntry (entry : Option (EntryPoint × Label))
    (h : ∀ e ∈ entry, (e.1.func, e.2) ∈ s.funcLabels) : Yields (callEntry entry) s fun ops s' =>
      Emits [] [] [] (entryEvents (entry.map Prod.fst)) s ops s' ∧
        ∀ e ∈ entry, Op.jump .call e.2 ∈ ops := by
  cases entry with
  | none => exact (ends_pure _).mpr ⟨.quiet (.refl s), by simp⟩
  | some found =>
    obtain ⟨entry, label⟩ := found
    have hlabel : (entry.func, label) ∈ s.funcLabels := h _ rfl
    have hcall {s₁ : GenState} (hsub : s.funcLabels ⊆ s₁.funcLabels) :
        Yields (emitCall (.jump .call label) 0) s₁ fun ops s' =>
          ops = [Op.jump .call label] ∧ Emits [] [] [] [.call none entry.func] s₁ ops s' := by
      refine (quiet_addDepth _ s₁).bind fun _ s₂ h₂ => (ends_pure _).mpr ⟨rfl, ?_⟩
      refine .event h₂ (.call ?_)
      rw [h₂.funcLabels]
      exact hsub hlabel
    unfold callEntry entryEvents
    dsimp only [Option.map_some]
    cases entry.kind with
    | main =>
      refine (hcall (List.Subset.refl _)).mono ?_
      rintro ops s' ⟨rfl, hops⟩
      exact ⟨hops, by simp⟩
    | startingConditional =>
      refine (writes_emit rfl s).bind fun _ s₁ h₁ => (hcall h₁.labels_subset).bind ?_
      rintro ops s₂ ⟨rfl, h₂⟩
      refine (quiet_depth s₂).bind fun d s₃ h₃ => (quiet_fit _ s₃).bind fun offset s₄ h₄ => ?_
      refine (writes_event (fun _ => .store _ _ _) s₄).bind fun _ s₅ h₅ => ?_
      refine (writes_moveSp _ s₅).bind fun _ s₆ h₆ => (ends_pure _).mpr ⟨?_, by simp⟩
      exact ((h₁.append h₂).append (h₅.after (h₃.trans h₄))).append h₆

theorem writes_popGlobals : Writes (popGlobals c) [] [] := by
  unfold popGlobals
  split
  · exact writes_moveSp _
  · exact writes_nil

theorem yields_globalsRoutine (hentry : entry.map Prod.fst = c.analysis.entry)
    (h : ∀ e ∈ entry, (e.1.func, e.2) ∈ s.funcLabels) :
    Yields (globalsRoutine c items label entry) s fun r s' => r.label = label ∧
      (∃ events, Emits [] [label] [] events s r.ops s') ∧ r.IsGlobals c items entry s'.funcLabels := by
  have hreserve : Writes (sequence ((globalDeclarators items).map (reserveGlobal c))) [] [] :=
    (writes_sequence fun decl _ => writes_reserveGlobal decl).of_events (by simp)
  have hinit : Writes (sequence ((globalDeclarators items).map (initGlobal c { exit := label }))) []
      ((globalDeclarators items).flatMap c.declEvents) :=
    writes_sequence fun decl _ => writes_initGlobal _ decl
  refine (quiet_begin [] s).bind fun _ s₁ h₁ => (hreserve s₁).bind fun cells s₂ h₂ => ?_
  refine (quiet_checkDepth _ _ s₂).bind fun _ s₃ h₃ => (writes_emit rfl s₃).bind fun save s₄ h₄ => ?_
  refine (hinit s₄).bind fun inits s₅ h₅ => ?_
  have hfront := ((h₂.after h₁).append (h₄.after h₃)).append h₅
  have hlabels : ∀ e ∈ entry, (e.1.func, e.2) ∈ s₅.funcLabels :=
    fun e he => hfront.labels_subset (h e he)
  refine (yields_callEntry entry hlabels).bind ?_
  rintro call s₆ ⟨h₆, hcall⟩
  refine (writes_emit rfl s₆).bind fun _ s₇ h₇ => (writes_popGlobals s₇).bind fun _ s₈ h₈ => ?_
  refine (writes_emit rfl s₈).bind fun _ s₉ h₉ => (quiet_checkDepth _ _ s₉).bind fun _ s₁₀ h₁₀ => ?_
  refine (ends_pure _).mpr ?_
  have htail := (((hfront.append h₆).append h₇).append h₈).append (h₉.before h₁₀)
  obtain ⟨new, fresh, hcode⟩ := (Emits.mark label (.refl s)).append htail
  refine ⟨rfl, ⟨_, new, fresh, hcode⟩, rfl, rfl, fun kind label hmem hkind => ?_, fun e he => ?_, ?_⟩
  · exact htail.jumps_mem (by simpa using hmem) hkind
  · simp [hcall e he]
  · have hevents := hcode.events
    rw [hentry] at hevents
    simpa [GenContext.globalsEvents] using hevents

end Gen

/-! ## Programs -/

structure Outline (c : GenContext) (items : Program) (labels : List (FuncId × Label))
    (A : Assembly) : Prop where
  entry : A.entry.map Prod.fst = c.analysis.entry
  entryLabel : ∀ e ∈ A.entry, (e.1.func, e.2) ∈ labels
  init : ∀ r ∈ A.init, r.IsGlobals c items A.entry labels
  initSize : A.init.isSome ↔ 0 < c.globals.size
  once : (labels.map Prod.fst).Nodup
  funcs : (A.functions.map Gen.PlacedRoutine.func).Perm (labels.map Prod.fst)
  functions : ∀ p ∈ A.functions, p.IsCode c items labels
  sorted : A.functions.Pairwise fun p q =>
    Gen.precedes (c.analysis.entry.map EntryPoint.func) p q = true
  marks : (marks A.lines).Nodup
  /-- What holds of the loader and is passed on by calls holds of all routines. -/
  reached : ∀ P : Routine → Prop, P A.loader →
    (∀ r, ∀ r' ∈ A.routines, P r → Op.jump .call r'.label ∈ r.ops → P r') → ∀ r ∈ A.routines, P r

namespace Gen

variable {c : GenContext} {items : Program}

theorem yields_entryLabel : Yields (entryLabel c) {} fun entry s =>
    entry.map Prod.fst = c.analysis.entry ∧ s.funcLabels = entry.toList.map (fun e => (e.1.func, e.2)) ∧
      s.queue = entry.toList.map (fun e => e.1.func) ∧
      Between 0 s.nextLabel (entry.toList.map Prod.snd) := by
  unfold entryLabel
  cases c.analysis.entry with
  | none => exact (ends_pure _).mpr ⟨rfl, rfl, rfl, .nil (Nat.le_refl 0)⟩
  | some e =>
    exact ⟨rfl, rfl, rfl, (Between.nil (Nat.le_refl 0)).cons_next⟩

theorem yields_globalsLabel (s : GenState) : Yields (globalsLabel c) s fun globals s' =>
    (globals.isSome ↔ 0 < c.globals.size) ∧ Emits [] [] globals.toList [] s [] s' := by
  unfold globalsLabel
  split
  · rename_i hsize
    refine (yields_newLabel s).bind fun label s₁ h₁ => (ends_pure _).mpr ⟨by simp [hsize], h₁⟩
  · rename_i hsize
    exact (ends_pure _).mpr ⟨by simp [hsize], .quiet (.refl s)⟩

theorem yields_loader (entry : Option (EntryPoint × Label)) (globals : Option Label) (s : GenState) :
    Yields (loader entry globals) s fun r s' =>
      r = ⟨loaderName, r.label, [Op.mark r.label] ++ loaderResult entry ++ loaderCall entry globals ++
        [Op.instr .ret]⟩ ∧ Emits [] [] [r.label] [] s [] s' :=
  (yields_newLabel s).bind fun _ _ h => (ends_pure _).mpr ⟨rfl, h⟩

theorem yields_initRoutines (hentry : entry.map Prod.fst = c.analysis.entry)
    (h : ∀ e ∈ entry, (e.1.func, e.2) ∈ s.funcLabels) (globals : Option Label) :
    Yields (initRoutines c items entry globals) s fun init s' =>
      ∃ r : Option Routine, init = r.toList ∧ r.map Routine.label = globals ∧
        (∃ events, Emits [] globals.toList [] events s (init.flatMap Routine.ops) s') ∧
        ∀ g ∈ r, g.IsGlobals c items entry s'.funcLabels := by
  cases globals with
  | none => exact (ends_pure _).mpr ⟨none, rfl, rfl, ⟨[], .quiet (.refl s)⟩, by simp⟩
  | some label =>
    refine (yields_globalsRoutine hentry h).bind ?_
    rintro r s' ⟨rfl, ⟨events, hops⟩, hr⟩
    exact (ends_pure _).mpr ⟨some r, rfl, rfl, ⟨events, by simpa using hops⟩, by simpa using hr⟩

theorem map_label_perm {placed : List PlacedRoutine} (hcode : ∀ p ∈ placed, p.IsCode c items labels)
    (honce : (labels.map Prod.fst).Nodup)
    (hfuncs : (placed.map PlacedRoutine.func).Perm (labels.map Prod.fst)) :
    (placed.map fun p => p.routine.label).Perm (labels.map Prod.snd) := by
  have hnodup : (placed.map PlacedRoutine.func).Nodup := hfuncs.nodup_iff.mpr honce
  have hsubset : (placed.map fun p => (p.func, p.routine.label)) ⊆ labels := by
    intro pair hpair
    obtain ⟨p, hp, rfl⟩ := mem_map.mp hpair
    exact (hcode p hp).labelled
  have hpairs : (placed.map fun p => (p.func, p.routine.label)).Nodup := by
    refine .of_map Prod.fst ?_
    rw [map_map]
    exact hnodup
  have hlength : labels.length ≤ (placed.map fun p => (p.func, p.routine.label)).length := by
    have hlen := hfuncs.length_eq
    simp only [length_map] at hlen ⊢
    omega
  have hperm := (subperm_of_subset hpairs hsubset).perm_of_length_le hlength
  simpa [Function.comp_def] using hperm.map Prod.snd

theorem precedes_trans (entry : Option FuncId) (p q r : PlacedRoutine) (h : precedes entry p q = true)
    (h' : precedes entry q r = true) : precedes entry p r = true := by
  unfold precedes at *
  grind

theorem precedes_total (entry : Option FuncId) (p q : PlacedRoutine) :
    (precedes entry p q || precedes entry q p) = true := by
  unfold precedes
  grind

end Gen

/-- The stages of the generation of a unit: the entry function gets its label, the routine `init` for
the global variables is generated and finds the functions `new`, and the queue leads to `later`. -/
structure Stages (c : GenContext) (items : Program) (entry : Option (EntryPoint × Label))
    (start : Label) (init : Option Routine) (placed : List Gen.PlacedRoutine)
    (new later : List (FuncId × Label)) (fresh rest : List Label) (s₁ s₂ s₃ : GenState) : Prop where
  labels : s₁.funcLabels = entry.toList.map fun e => (e.1.func, e.2)
  queue : s₁.queue = entry.toList.map fun e => e.1.func
  between : Between 0 s₁.nextLabel (entry.toList.map Prod.snd)
  front : ∃ events, Emission new fresh [] (init.map Routine.label).toList
    ((init.map Routine.label).toList ++ [start]) events s₁ (init.toList.flatMap Routine.ops) s₂
  init : ∀ g ∈ init, g.IsGlobals c items entry s₃.funcLabels
  run : QueueRun c items later rest s₂ placed s₃

namespace Stages

variable {c : GenContext} {items : Program} {entry : Option (EntryPoint × Label)} {start : Label}
  {init : Option Routine} {placed : List Gen.PlacedRoutine} {new later : List (FuncId × Label)}
  {fresh rest : List Label} {s₁ s₂ s₃ : GenState}

def assembly (_ : Stages c items entry start init placed new later fresh rest s₁ s₂ s₃) : Assembly :=
  ⟨fun func => s₃.funcLabels.lookup func, entry, start, init,
    placed.mergeSort (Gen.precedes (entry.map fun e => e.1.func))⟩

variable (h : Stages c items entry start init placed new later fresh rest s₁ s₂ s₃)
include h

theorem allLabels : s₃.funcLabels = later ++ (new ++ entry.toList.map fun e => (e.1.func, e.2)) := by
  obtain ⟨events, hfront⟩ := h.front
  rw [h.run.labels, hfront.grows.labels, h.labels]

theorem waiting : s₂.queue = (entry.toList.map fun e => e.1.func) ++ (new.map Prod.fst).reverse := by
  obtain ⟨events, hfront⟩ := h.front
  rw [hfront.grows.queue, h.queue]

theorem funcs : (placed.map Gen.PlacedRoutine.func).Perm (s₃.funcLabels.map Prod.fst) := by
  rw [h.run.funcs, h.waiting, h.allLabels, perm_iff_count]
  intro func
  have hentry : (entry.toList.map fun e => (e.1.func, e.2)).map Prod.fst =
      entry.toList.map fun e => e.1.func := by simp
  simp only [map_append, hentry, count_append, count_reverse]
  omega

theorem perm_functions : h.assembly.functions.Perm placed := mergeSort_perm _ _

theorem marks : (Nwscript.marks h.assembly.lines).Nodup := by
  obtain ⟨events, hfront⟩ := h.front
  have hall := (h.between.append hfront.between).append h.run.between
  have hplaced := Gen.map_label_perm h.run.code h.run.once h.funcs
  have hentry : (entry.toList.map fun e => (e.1.func, e.2)).map Prod.snd =
      entry.toList.map Prod.snd := by simp
  rw [h.allLabels, map_append, map_append, hentry] at hplaced
  have hinit : (init.toList.flatMap fun r => Nwscript.marks r.ops).Perm
      ((init.map Routine.label).toList ++ fresh) := by
    refine .trans (.of_eq ?_) hfront.marks
    cases init <;> simp
  have hfunctions := (h.perm_functions.flatMap_right fun p => Nwscript.marks p.routine.ops).trans
    (h.run.marks.trans (hplaced.append_right rest))
  refine (List.Perm.nodup_iff ?_).mpr hall.nodup
  rw [Gen.marks_lines]
  refine ((hinit.append hfunctions).cons start).trans ?_
  rw [perm_iff_count]
  intro label
  simp only [count_append, count_cons, count_nil]
  omega

theorem reached {P : Routine → Prop} (hstart : P h.assembly.loader)
    (hcalls : ∀ r, ∀ r' ∈ h.assembly.routines, P r → Op.jump .call r'.label ∈ r.ops → P r') :
    ∀ r ∈ h.assembly.routines, P r := by
  obtain ⟨events, hfront⟩ := h.front
  have hinit {g : Routine} (hg : g ∈ init) : g ∈ h.assembly.routines :=
    mem_append_left _ (mem_append_right _ (Option.mem_toList.mpr hg))
  have hplaced {p : Gen.PlacedRoutine} (hp : p ∈ placed) : p.routine ∈ h.assembly.routines :=
    mem_append_right _ (mem_map_of_mem (h.perm_functions.mem_iff.mpr hp))
  have hloader : Gen.loaderCall entry (init.map Routine.label) ⊆ h.assembly.loader.ops :=
    fun op hop => mem_append_left _ (mem_append_right _ hop)
  have hglobals : ∀ g ∈ init, P g := by
    intro g hg
    refine hcalls _ g (hinit hg) hstart (hloader ?_)
    cases hg
    exact mem_singleton_self _
  have hlabel {p : Gen.PlacedRoutine} (hp : p ∈ placed) {label : Label}
      (hmem : (p.func, label) ∈ s₃.funcLabels) : label = p.routine.label :=
    congrArg Prod.snd (inj_on_of_nodup_map h.run.once hmem (h.run.code p hp).labelled rfl)
  have hfunctions : ∀ p ∈ placed, P p.routine := by
    refine h.run.reached P (fun p hp hfunc => ?_) fun r p hp => hcalls r p.routine (hplaced hp)
    rw [h.waiting, mem_append, mem_reverse] at hfunc
    rcases hfunc with hfunc | hfunc
    · obtain ⟨e, he, hefunc⟩ := mem_map.mp hfunc
      have heq : e.2 = p.routine.label := by
        refine hlabel hp ?_
        rw [h.allLabels, ← hefunc]
        exact mem_append_right _ (mem_append_right _ (mem_map_of_mem he))
      obtain rfl : entry = some e := Option.mem_toList.mp he
      cases init with
      | some g =>
        have hcall := (h.init g rfl).calls e rfl
        rw [heq] at hcall
        exact hcalls g p.routine (hplaced hp) (hglobals g rfl) hcall
      | none =>
        refine hcalls _ p.routine (hplaced hp) hstart (hloader ?_)
        rw [← heq]
        exact mem_singleton_self _
    · obtain ⟨pair, hpair, hfst⟩ := mem_map.mp hfunc
      have heq : pair.2 = p.routine.label := by
        refine hlabel hp ?_
        rw [h.allLabels, ← hfst]
        simp [hpair]
      obtain ⟨g, hg, hop⟩ := mem_flatMap.mp (hfront.called pair hpair)
      rw [heq] at hop
      exact hcalls g p.routine (hplaced hp) (hglobals g (Option.mem_toList.mp hg)) hop
  intro r hr
  rcases mem_append.mp hr with hr | hr
  · rcases mem_append.mp hr with hr | hr
    · rw [mem_singleton.mp hr]
      exact hstart
    · exact hglobals r (Option.mem_toList.mp hr)
  · obtain ⟨p, hp, rfl⟩ := mem_map.mp hr
    exact hfunctions p (h.perm_functions.mem_iff.mp hp)

theorem outline (hentry : entry.map Prod.fst = c.analysis.entry) (hinit : init.isSome ↔ 0 < c.globals.size) :
    Outline c items s₃.funcLabels h.assembly where
  entry := hentry
  entryLabel e he := by
    rw [h.allLabels]
    refine mem_append_right _ (mem_append_right _ (mem_map_of_mem ?_))
    exact Option.mem_toList.mpr he
  init := h.init
  initSize := hinit
  once := h.run.once
  funcs := (h.perm_functions.map _).trans h.funcs
  functions p hp := h.run.code p (h.perm_functions.mem_iff.mp hp)
  sorted := by
    have hfunc : c.analysis.entry.map EntryPoint.func = entry.map fun e => e.1.func := by
      rw [← hentry, Option.map_map]
      rfl
    rw [hfunc]
    exact pairwise_mergeSort (Gen.precedes_trans _) (Gen.precedes_total _) placed
  marks := h.marks
  reached _ hstart hcalls := h.reached hstart hcalls

end Stages

namespace Gen

variable {c : GenContext} {items : Program}

theorem yields_program : Yields (program c items) {} fun code _ => ∃ labels A,
    Outline c items labels A ∧ code = ⟨A.routines, c.globals.size, A.entry.map Prod.snd⟩ := by
  refine yields_entryLabel.bind ?_
  rintro entry s₁ ⟨hentry, hlabels, hqueue, hbetween⟩
  refine (yields_globalsLabel s₁).bind ?_
  rintro globals s₂ ⟨hsome, h₂⟩
  refine (yields_loader entry globals s₂).bind ?_
  rintro start s₃ ⟨hstart, h₃⟩
  have hfront := h₂.append h₃
  have hentries : ∀ e ∈ entry, (e.1.func, e.2) ∈ s₃.funcLabels := by
    intro e he
    refine hfront.labels_subset ?_
    rw [hlabels]
    exact mem_map_of_mem (Option.mem_toList.mpr he)
  refine (yields_initRoutines hentry hentries globals).bind ?_
  rintro init s₄ ⟨r, rfl, rfl, ⟨events, h₄⟩, hinit⟩
  have hready : s₁.Ready := by
    refine ⟨?_, fun func hfunc => ?_⟩
    · rw [hlabels, map_map]
      cases entry <;> simp
    · rw [hlabels, map_map]
      rwa [hqueue] at hfunc
  obtain ⟨new, fresh, hall⟩ := hfront.append h₄
  refine (yields_drain _ (hready.grows hall.grows)).bind ?_
  rintro placed s₅ ⟨later, rest, hrun⟩
  refine (ends_pure _).mpr ?_
  have hstages : Stages c items entry start.label r placed new later fresh rest s₁ s₄ s₅ := by
    refine ⟨hlabels, hqueue, hbetween, ⟨_, by simpa using hall⟩, fun g hg => ?_, hrun⟩
    refine (hinit g hg).mono ?_
    rw [hrun.labels]
    exact subset_append_right _ _
  refine ⟨s₅.funcLabels, hstages.assembly, hstages.outline hentry ?_, ?_⟩
  · simpa using hsome
  · have hloader : hstages.assembly.loader = start := hstart.symm
    simp only [Assembly.routines, hloader]
    rfl

end Gen

theorem outline_of_generate {engine : EngineTable} {program : Program} {analysis : Analysis} {code : Code}
    (h : generate engine program analysis = .ok code) : ∃ labels A,
      Outline ⟨analysis, engine, .ofAnalysis analysis⟩ program labels A ∧
        code = ⟨A.routines, (GlobalLayout.ofAnalysis analysis).size, A.entry.map Prod.snd⟩ := by
  unfold generate at h
  dsimp only at h
  have hyields := @Gen.yields_program ⟨analysis, engine, .ofAnalysis analysis⟩ program
  rcases hyields.ok_or_error with ⟨found, s, hrun, houtline⟩ | ⟨fault, hrun, -⟩
  · rw [hrun] at h
    exact Except.ok.inj h ▸ houtline
  · rw [hrun] at h
    cases h

end Nwscript
