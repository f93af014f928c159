import Mathlib
import Nwscript.Proofs.Code.Routine
import Nwscript.Proofs.Typing.Program

/-! # Code of programs

The functions that are called are generated once each, and no two lines of a unit carry the same mark.
Code generation of a program without errors can only fail because a depth or an offset leaves the
range of 32-bit numbers. -/

open List

namespace Nwscript

variable {entry : Option (EntryPoint × Label)}

open Gen

/-! ## The shape of programs -/

structure Assembly where
  func : FuncId → Option Label
  entry : Option (EntryPoint × Label)
  start : Label
  /-- The routine for the global variables. -/
  init : Option Routine
  functions : List PlacedRoutine

namespace Assembly

def loader (A : Assembly) : Routine :=
  ⟨loaderName, A.start, [Op.mark A.start] ++ loaderResult A.entry ++
    loaderCall A.entry (A.init.map Routine.label) ++ [Op.instr .ret]⟩

def routines (A : Assembly) : List Routine :=
  [A.loader] ++ A.init.toList ++ A.functions.map PlacedRoutine.routine

def lines (A : Assembly) : List Op := A.routines.flatMap Routine.ops

end Assembly

structure ProgramCode (c : GenContext) (items : Program) (A : Assembly) : Prop where
  entry : A.entry.map Prod.fst = c.analysis.entry
  entryLabel : ∀ e label, A.entry = some (e, label) → A.func e.func = some label
  init : ∀ r, A.init = some r → GlobalsCode c items A.func A.entry r
  noInit : A.init = none → c.globals.size ≤ 0
  functions : ∀ p ∈ A.functions, FunctionCode c items A.func p.func p.index p.routine
  nodup : (A.functions.map PlacedRoutine.func).Nodup
  called : ∀ f label, A.func f = some label → ∃ p ∈ A.functions, p.func = f ∧ p.routine.label = label

/-! ## The queue -/

structure Drained (c : GenContext) (items : Program) (s : GenState) (p : PlacedRoutine) : Prop where
  label : s.funcLabels.lookup p.func = some p.routine.label
  code : ∀ funcs, Extends funcs s → FunctionCode c items funcs p.func p.index p.routine

theorem Drained.later {c : GenContext} {items : Program} {s s' : GenState} {p : PlacedRoutine}
    (h : Drained c items s p) (hs : Finished c.analysis s s') : Drained c items s' p :=
  ⟨hs.extends_of (fun _ _ hl => hl) _ _ h.label, fun funcs hf => h.code funcs (hs.extends_of hf)⟩

namespace Gen

variable {c : GenContext} {items : Program} {s : GenState}

theorem length_funcLabels_le {a : Analysis} (hs : s.Between a) :
    s.funcLabels.length ≤ a.functions.size := by
  have hsubset : s.funcLabels.map Prod.fst ⊆ List.range a.functions.size := by
    intro f hf
    obtain ⟨p, hp, rfl⟩ := mem_map.mp hf
    obtain ⟨info, hinfo, -⟩ := hs.defined p hp
    exact mem_range.mpr (Array.getElem?_eq_some_iff.mp hinfo).1
  have hlen := (subperm_of_subset hs.funcsNodup hsubset).length_le
  simpa using hlen

/-- The routines of the functions in the queue and of those they call. The functions that have labels
are those in the queue and, before them, those that are done. -/
theorem meets_drain (hc : c.Ok) (hitems : ProgramOk c.engine c.analysis items) {n : Nat}
    {done : List FuncId} (hs : s.Between c.analysis)
    (hkeys : (s.funcLabels.map Prod.fst).reverse = done ++ s.queue)
    (hn : c.analysis.functions.size ≤ n + done.length) {Q : List PlacedRoutine → GenState → Prop}
    (k : ∀ ps s', Finished c.analysis s s' →
      (s'.funcLabels.map Prod.fst).reverse = done ++ ps.map PlacedRoutine.func →
      (∀ p ∈ ps, Drained c items s' p) → Q ps s') : Ends Overflows (drain c items n) s Q := by
  have hempty (hq : s.queue = []) : Q [] s :=
    k [] s (.refl hs) (by simpa [hq] using hkeys) (by simp)
  induction n generalizing s done Q with
  | zero =>
    have hlen := congrArg List.length hkeys
    simp only [length_reverse, length_map, length_append] at hlen
    have hq : s.queue = [] := by
      have hle := length_funcLabels_le hs
      exact length_eq_zero_iff.mp (by omega)
    simp only [drain, ends_bind, ends_get, hq, isEmpty_nil, if_true, ends_pure]
    exact hempty hq
  | succ n ih =>
    simp only [drain, ends_bind, ends_get]
    cases hq : s.queue with
    | nil => exact hempty hq
    | cons func queue =>
      have hmem : func ∈ s.funcLabels.map Prod.fst := by
        rw [← mem_reverse, hkeys, hq]
        simp
      obtain ⟨p, hp, rfl⟩ := mem_map.mp hmem
      obtain ⟨info, hinfo, hdefined⟩ := hs.defined p hp
      obtain ⟨index, decl, body, hindex, hitem, hfunc⟩ := hitems.defined p.1 info hinfo hdefined
      have hlabel : ∃ label, s.funcLabels.lookup p.1 = some label := by
        rw [← Option.isSome_iff_exists, lookup_isSome_iff]
        exact ⟨p, hp, by simp⟩
      obtain ⟨label, hlabel⟩ := hlabel
      simp only [ends_bind, ends_modify, hindex, orFault, ends_pure]
      have hs₁ : GenState.Between c.analysis { s with queue } :=
        ⟨by simp, hs.funcLabels, hs.funcsNodup, hs.defined⟩
      refine meets_function hc hs₁ hinfo hindex hitem hfunc hlabel
        fun r s₂ added hfin hkeys₂ hqueue hr hcode => ?_
      have hfin : Finished c.analysis s s₂ := ⟨hfin.idle, hfin.funcs⟩
      have hfirst : Drained c items s₂ ⟨p.1, index, r⟩ := by
        refine ⟨?_, hcode⟩
        rw [hr]
        exact hfin.extends_of (fun _ _ hl => hl) _ _ hlabel
      have hstep {ps : List PlacedRoutine} {s' : GenState}
          (hfin' : Finished c.analysis s₂ s')
          (hkeys' : (s'.funcLabels.map Prod.fst).reverse =
            done ++ [p.1] ++ ps.map PlacedRoutine.func)
          (hps : ∀ p ∈ ps, Drained c items s' p) : Q (⟨p.1, index, r⟩ :: ps) s' := by
        refine k _ s' (hfin.trans hfin') (by simpa using hkeys') fun q hmem => ?_
        rcases mem_cons.mp hmem with rfl | hmem
        · exact hfirst.later hfin'
        · exact hps q hmem
      have hkeys₂ : (s₂.funcLabels.map Prod.fst).reverse = done ++ [p.1] ++ s₂.queue := by
        rw [hkeys₂, hkeys, hq, hqueue]
        simp
      refine ih hfin.idle hkeys₂ (by simp only [length_append, length_singleton]; omega)
        (fun ps s' => hstep) fun hq₂ => hstep (.refl hfin.idle) (by simpa [hq₂] using hkeys₂) (by simp)

/-! ## Whole programs -/

theorem ok_empty (a : Analysis) : GenState.Ok a (fun _ => none) {} :=
  ⟨by simp, by simp, by simp, by simp⟩

theorem meets_entryLabel (hitems : ProgramOk c.engine c.analysis items)
    {Q : Option (EntryPoint × Label) → GenState → Prop}
    (k : ∀ entry s, s.Between c.analysis → (s.funcLabels.map Prod.fst).reverse = s.queue →
      entry.map Prod.fst = c.analysis.entry →
      (∀ e label, entry = some (e, label) → s.funcLabels.lookup e.func = some label) → Q entry s) :
    Ends Overflows (entryLabel c) {} Q := by
  unfold entryLabel
  cases hentry : c.analysis.entry with
  | none =>
    rw [ends_pure]
    exact k none {} (ok_empty _) rfl hentry.symm (by simp)
  | some e =>
    obtain ⟨f, hf, hdefined, -⟩ := hitems.entry e hentry
    simp only [ends_bind, ends_pure]
    refine Gen.meets_funcLabel (ok_empty _) hf hdefined fun label E' s hadv _ _ hl => ?_
    obtain ⟨new, hnew, hqueue, -⟩ := hadv.funcs
    refine k _ s ⟨by simp, fun p hp => ⟨(hadv.ok.funcLabels p hp).1, rfl⟩, hadv.ok.funcsNodup,
      hadv.ok.defined⟩ ?_ hentry.symm ?_
    · rw [hnew, hqueue]
      simp
    · rintro e' label' heq
      cases heq
      exact hl

@[simp] theorem marks_loaderResult : marks (loaderResult entry) = [] := by
  unfold loaderResult
  split
  · split <;> rfl
  · rfl

@[simp] theorem marks_loaderCall {globals : Option Label} : marks (loaderCall entry globals) = [] := by
  unfold loaderCall
  split <;> rfl

theorem marks_lines (A : Assembly) : marks A.lines = A.start ::
    (A.init.toList.flatMap (fun r => marks r.ops) ++
      A.functions.flatMap fun p => marks p.routine.ops) := by
  have hloader : marks A.loader.ops = [A.start] := by simp [Assembly.loader]
  have hflat {α : Type} (as : List α) (f : α → List Op) :
      marks (as.flatMap f) = as.flatMap fun a => marks (f a) := by
    simp only [marks, filterMap_flatMap]
  simp [Assembly.lines, Assembly.routines, hflat, flatMap_map, hloader]

theorem programCode_of_drained {start : Label}
    {init : Option Routine} {s' : GenState} {ps sorted : List PlacedRoutine}
    (hentry : entry.map Prod.fst = c.analysis.entry)
    (hlabel : ∀ e label, entry = some (e, label) → s.funcLabels.lookup e.func = some label)
    (hinit : ∀ r, init = some r → ∀ funcs, Extends funcs s → GlobalsCode c items funcs entry r)
    (hnoInit : init = none → c.globals.size ≤ 0) (hfin : Finished c.analysis s s')
    (hkeys : (s'.funcLabels.map Prod.fst).reverse = ps.map PlacedRoutine.func)
    (hps : ∀ p ∈ ps, Drained c items s' p) (hsorted : sorted.Perm ps) :
    ProgramCode c items ⟨fun f => s'.funcLabels.lookup f, entry, start, init, sorted⟩ where
  entry := hentry
  entryLabel e label he := hfin.extends_of (fun _ _ hl => hl) _ _ (hlabel e label he)
  init r hr := hinit r hr _ (hfin.extends_of fun _ _ hl => hl)
  noInit := hnoInit
  functions p hp := (hps p (hsorted.mem_iff.mp hp)).code _ fun _ _ hl => hl
  nodup := by
    rw [(hsorted.map _).nodup_iff, ← hkeys, nodup_reverse]
    exact hfin.idle.funcsNodup
  called f label hl := by
    have hf : f ∈ ps.map PlacedRoutine.func := by
      rw [← hkeys, mem_reverse]
      exact mem_map_of_mem (mem_of_lookup hl)
    obtain ⟨p, hp, rfl⟩ := mem_map.mp hf
    refine ⟨p, hsorted.mem_iff.mpr hp, rfl, ?_⟩
    exact Option.some.inj ((hps p hp).label.symm.trans hl)

theorem meets_initRoutines (hc : c.Ok) (hitems : ProgramOk c.engine c.analysis items)
    (hglobals : c.globals = .ofAnalysis c.analysis)
    (hs : s.Between c.analysis) (hkeys : (s.funcLabels.map Prod.fst).reverse = s.queue)
    {Q : Routine × List Routine → GenState → Prop}
    (k : ∀ start init s', Finished c.analysis s s' →
      (s'.funcLabels.map Prod.fst).reverse = s'.queue →
      (∀ r, init = some r → ∀ funcs, Extends funcs s' → GlobalsCode c items funcs entry r) →
      (init = none → c.globals.size ≤ 0) →
      Q (⟨loaderName, start, [Op.mark start] ++ loaderResult entry ++
        loaderCall entry (init.map Routine.label) ++ [Op.instr .ret]⟩, init.toList) s') :
    Ends Overflows (do
      let globals ← globalsLabel c
      let start ← loader entry globals
      return (start, ← initRoutines c items entry globals)) s Q := by
  by_cases hpos : 0 < c.globals.size
  · simp only [globalsLabel, hpos, if_true, loader, initRoutines, ends_bind, ends_map,
      ends_newLabel, ends_pure]
    have hfirst := Finished.newLabel hs
    have hboth := hfirst.trans (.newLabel hfirst.idle)
    refine meets_globalsRoutine hc hitems hglobals hpos hboth.idle
      fun r s' added hfin hkeys' hqueue hr hcode => ?_
    have hloader := k (s.nextLabel + 1) (some r) s' (hboth.trans hfin) ?_ ?_ (by simp)
    · rw [Option.map_some, hr] at hloader
      exact hloader
    · rw [hkeys', hqueue]
      exact congrArg (· ++ added) hkeys
    · rintro r' ⟨⟩
      exact hcode
  · simp only [globalsLabel, hpos, if_false, loader, initRoutines, ends_bind, ends_newLabel, ends_pure]
    exact k s.nextLabel none _ (.newLabel hs) hkeys (by simp) fun _ => Int.not_lt.mp hpos

theorem meets_program (hc : c.Ok) (hitems : ProgramOk c.engine c.analysis items)
    (hglobals : c.globals = .ofAnalysis c.analysis) :
    Ends Overflows (program c items) {} fun code _ => ∃ A, code.routines = A.routines ∧
      code.globalsSize = c.globals.size ∧ code.entry = A.entry.map Prod.snd ∧
      ProgramCode c items A := by
  have hprogram : program c items = (do
      let entry ← entryLabel c
      let (start, init) ← (do
        let globals ← globalsLabel c
        let start ← loader entry globals
        return (start, ← initRoutines c items entry globals))
      let functions ← drain c items c.analysis.functions.size
      let sorted := functions.mergeSort (precedes (entry.map fun e => e.1.func))
      return { routines := [start] ++ init ++ sorted.map PlacedRoutine.routine
               globalsSize := c.globals.size
               entry := entry.map Prod.snd }) := by
    simp [program]
  rw [hprogram, ends_bind]
  refine meets_entryLabel hitems fun entry s hs hkeys hentry hlabel => ?_
  rw [ends_bind]
  refine meets_initRoutines hc hitems hglobals hs hkeys
    fun start init s' houter hkeys' hinit hnoInit => ?_
  simp only [ends_bind, ends_pure]
  refine meets_drain hc hitems houter.idle (show _ = [] ++ s'.queue from hkeys') (Nat.le_refl _)
    fun ps s'' hfin hkeys'' hps => ?_
  refine ⟨⟨fun f => s''.funcLabels.lookup f, entry, start, init, _⟩, rfl, trivial, rfl, ?_⟩
  exact programCode_of_drained hentry
    (fun e label he => houter.extends_of (fun _ _ hl => hl) _ _ (hlabel e label he)) hinit hnoInit hfin
    hkeys'' hps (mergeSort_perm ..)

end Gen

theorem generate_cases {engine : EngineTable} {a : Analysis} {items : Program}
    (hitems : ProgramOk engine a items) (hengine : engine.Ok) (hsmall : a.structs.Small) :
    (∃ code A, generate engine items a = .ok code ∧ code.routines = A.routines ∧
      code.entry = A.entry.map Prod.snd ∧
      ProgramCode { analysis := a, engine, globals := .ofAnalysis a } items A) ∨
    ∃ bytes, generate engine items a = .error (.overflow bytes) := by
  have h := meets_program (hitems.genContext hengine hsmall) hitems rfl
  unfold generate
  rcases h.ok_or_overflow with ⟨code, s, heq, A, hroutines, -, hentry, hcode⟩ | ⟨bytes, heq⟩
  · refine .inl ⟨code, A, ?_, hroutines, hentry, hcode⟩
    simp only [heq]
  · refine .inr ⟨bytes, ?_⟩
    simp only [heq]

end Nwscript
