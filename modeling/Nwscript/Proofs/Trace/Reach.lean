import Nwscript.Proofs.Trace.Program

/-! # Labels and reachability

Whatever the tables of a program hold, code that was generated from them has its labels in order:
each is marked once, and jumps and calls go to marks. The routines are the functions that calls lead
to from the start of the unit. -/

open List

namespace Nwscript

open Gen (PlacedRoutine)

inductive Code.Reaches (code : Code) : Label → Prop where
  | start {r} : code.routines.head? = some r → Reaches code r.label
  | call {r label} : Reaches code r.label → r ∈ code.routines →
      Op.jump .call label ∈ r.ops → Reaches code label

/-- A unit behind its loader, and behind the routine for the global variables if they take up storage.
The functions stand in the order of their definitions, with the entry function last. -/
structure Arranged (program : Program) (analysis : Analysis) (code : Code) (loader : Routine)
    (init : List Routine) (others last : List PlacedRoutine) : Prop where
  routines : code.routines = loader :: init ++ (others ++ last).map PlacedRoutine.routine
  loaderName : loader.name = Nwscript.loaderName
  initNames : init.map Routine.name = if 0 < code.globalsSize then [globalsName] else []
  once : ((others ++ last).map PlacedRoutine.func).Nodup
  definition : ∀ p ∈ others ++ last, analysis.definition? p.func = some p.index ∧
    ∃ decl body info, program[p.index]? = some (.function decl body) ∧
      analysis.functions[p.func]? = some info ∧ p.routine.name = info.name
  ordered : others.Pairwise fun p q => p.index ≤ q.index
  entryLast : last.map PlacedRoutine.func = analysis.entry.toList.map EntryPoint.func

variable {r : Routine} {label : Label} {engine : EngineTable} {program : Program}
  {analysis : Analysis} {code : Code}

theorem exists_of_mem_right {α β : Type} {R : α → β → Prop} {xs : List α} {ys : List β}
    (h : List.Forall₂ R xs ys) {y : β} (hy : y ∈ ys) : ∃ x ∈ xs, R x y := by
  induction h with
  | nil => cases hy
  | cons hxy _ ih =>
    rcases mem_cons.mp hy with rfl | hy
    · exact ⟨_, .head _, hxy⟩
    · obtain ⟨x, hx, hR⟩ := ih hy
      exact ⟨x, .tail _ hx, hR⟩

namespace Outline

variable {c : GenContext} {items : Program} {labels : List (FuncId × Label)} {A : Assembly}

theorem mem_routines : r ∈ A.routines ↔
    r = A.loader ∨ r ∈ A.init ∨ ∃ p ∈ A.functions, p.routine = r := by
  simp [Assembly.routines]

theorem loader_mem : A.loader ∈ A.routines := mem_routines.mpr (.inl rfl)

theorem call_labelled {events : List Event} {ops : List Op}
    (h : List.Forall₂ (Event.Line labels) events (ops.filter Op.isEvent))
    (hcall : Op.jump .call label ∈ ops) : ∃ func, (func, label) ∈ labels := by
  obtain ⟨event, -, hline⟩ := exists_of_mem_right h (mem_filter.mpr ⟨hcall, rfl⟩)
  cases hline with
  | @call _ func _ hmem => exact ⟨func, hmem⟩

theorem mem_loader {op : Op} : op ∈ A.loader.ops ↔ op = .mark A.start ∨
    op ∈ Gen.loaderResult A.entry ∨ op ∈ Gen.loaderCall A.entry (A.init.map Routine.label) ∨
    op = .instr .ret := by
  simp [Assembly.loader]

theorem jump_loader {kind : JumpKind} (hjump : Op.jump kind label ∈ A.loader.ops) :
    kind = .call ∧ ((∃ g ∈ A.init, g.label = label) ∨ ∃ e ∈ A.entry, e.2 = label) := by
  rcases mem_loader.mp hjump with hjump | hjump | hjump | hjump
  · cases hjump
  · unfold Gen.loaderResult at hjump
    split at hjump
    · split at hjump <;> simp at hjump
    · cases hjump
  · cases hinit : A.init with
    | some g =>
      rw [hinit] at hjump
      obtain ⟨rfl, rfl⟩ := Op.jump.inj (mem_singleton.mp hjump)
      exact ⟨rfl, .inl ⟨g, rfl, rfl⟩⟩
    | none =>
      rw [hinit] at hjump
      cases hentry : A.entry with
      | some e =>
        rw [hentry] at hjump
        obtain ⟨rfl, rfl⟩ := Op.jump.inj (mem_singleton.mp hjump)
        exact ⟨rfl, .inr ⟨e, rfl, rfl⟩⟩
      | none =>
        rw [hentry] at hjump
        cases hjump
  · cases hjump

variable (h : Outline c items labels A)
include h

theorem exists_function {func : FuncId}
    (hmem : (func, label) ∈ labels) : ∃ p ∈ A.functions, p.func = func ∧ p.routine.label = label := by
  have hfunc : func ∈ A.functions.map PlacedRoutine.func :=
    h.funcs.mem_iff.mpr (mem_map_of_mem hmem)
  obtain ⟨p, hp, rfl⟩ := mem_map.mp hfunc
  have heq := inj_on_of_nodup_map h.once (h.functions p hp).labelled hmem rfl
  exact ⟨p, hp, rfl, congrArg Prod.snd heq⟩

theorem begins (hr : r ∈ A.routines) :
    r.ops.head? = some (.mark r.label) := by
  rcases mem_routines.mp hr with rfl | hr | ⟨p, hp, rfl⟩
  · rfl
  · exact (h.init r hr).begins
  · exact (h.functions p hp).begins

theorem label_mem_marks (hr : r ∈ A.routines) :
    r.label ∈ Nwscript.marks A.lines := by
  have hmem : Op.mark r.label ∈ r.ops := mem_of_mem_head? (h.begins hr)
  exact mem_marks.mpr (mem_flatMap.mpr ⟨r, hr, hmem⟩)

theorem label_unique {p : PlacedRoutine} (hp : p ∈ A.functions) :
    p.routine.label ≠ A.start ∧ (∀ g ∈ A.init, g.label ≠ p.routine.label) ∧
      ∀ q ∈ A.functions, q.routine.label = p.routine.label → q = p := by
  have hmark {q : PlacedRoutine} (hq : q ∈ A.functions) :
      q.routine.label ∈ Nwscript.marks q.routine.ops :=
    mem_marks.mpr (mem_of_mem_head? (h.functions q hq).begins)
  have hnodup := h.marks
  rw [Gen.marks_lines, nodup_cons, nodup_append'] at hnodup
  obtain ⟨hstart, -, hfunctions, hapart⟩ := hnodup
  have hlabel : p.routine.label ∈ A.functions.flatMap fun p => Nwscript.marks p.routine.ops :=
    mem_flatMap.mpr ⟨p, hp, hmark hp⟩
  refine ⟨fun heq => ?_, fun g hg heq => ?_, fun q hq heq => ?_⟩
  · exact hstart (mem_append_right _ (heq ▸ hlabel))
  · have hg' : g.label ∈ Nwscript.marks g.ops :=
      mem_marks.mpr (mem_of_mem_head? (h.init g hg).begins)
    exact hapart (mem_flatMap.mpr ⟨g, Option.mem_toList.mpr hg, hg'⟩) (heq ▸ hlabel)
  · by_contra hne
    have hsymm : Std.Symm (Function.onFun List.Disjoint fun p : PlacedRoutine =>
        Nwscript.marks p.routine.ops) := ⟨fun _ _ hd => List.disjoint_comm.mp hd⟩
    have hdisjoint := (nodup_flatMap.mp hfunctions).2.forall hq hp hne
    exact hdisjoint (hmark hq) (heq ▸ hmark hp)

theorem func_eq {p : PlacedRoutine} (hp : p ∈ A.functions)
    {func : FuncId} (hmem : (func, p.routine.label) ∈ labels) : func = p.func := by
  obtain ⟨q, hq, rfl, hlabel⟩ := h.exists_function hmem
  rw [(h.label_unique hp).2.2 q hq hlabel]

theorem call_mem (hr : r ∈ A.routines)
    (hcall : Op.jump .call label ∈ r.ops) : ∃ r' ∈ A.routines, r'.label = label := by
  have hfunction : (∃ func, (func, label) ∈ labels) → ∃ r' ∈ A.routines, r'.label = label := by
    rintro ⟨func, hmem⟩
    obtain ⟨p, hp, -, hlabel⟩ := h.exists_function hmem
    exact ⟨p.routine, mem_routines.mpr (.inr (.inr ⟨p, hp, rfl⟩)), hlabel⟩
  rcases mem_routines.mp hr with rfl | hr | ⟨p, hp, rfl⟩
  · obtain ⟨-, ⟨g, hg, rfl⟩ | ⟨e, he, rfl⟩⟩ := jump_loader hcall
    · exact ⟨g, mem_routines.mpr (.inr (.inl hg)), rfl⟩
    · exact hfunction ⟨_, h.entryLabel e he⟩
  · exact hfunction (call_labelled (h.init r hr).events hcall)
  · obtain ⟨decl, body, info, -, -, -, hevents⟩ := (h.functions p hp).code
    exact hfunction (call_labelled hevents hcall)

theorem jumpsWithin (hr : r ∈ A.routines) : r.JumpsWithin := by
  rcases mem_routines.mp hr with rfl | hr | ⟨p, hp, rfl⟩
  · exact fun kind label hjump hkind => absurd (jump_loader hjump).1 hkind
  · exact (h.init r hr).jumps
  · exact (h.functions p hp).jumps

theorem initNames :
    A.init.toList.map Routine.name = if 0 < c.globals.size then [globalsName] else [] := by
  have hsize := h.initSize
  cases hinit : A.init with
  | none =>
    rw [hinit] at hsize
    rw [if_neg fun hpos => by cases hsize.mpr hpos]
    rfl
  | some r =>
    rw [hinit] at hsize
    rw [if_pos (hsize.mp rfl), Option.toList_some, map_singleton, (h.init r hinit).name]

theorem labelled {size : Int} :
    Labelled ⟨A.routines, size, A.entry.map Prod.snd⟩ where
  once := h.marks
  jumps := by
    intro label hlabel
    obtain ⟨kind, hjump⟩ := mem_jumpLabels.mp hlabel
    obtain ⟨r, hr, hjump⟩ := mem_flatMap.mp hjump
    by_cases hkind : kind = .call
    · subst hkind
      obtain ⟨r', hr', rfl⟩ := h.call_mem hr hjump
      exact h.label_mem_marks hr'
    · have hmark := mem_of_mem_tail (mem_marks.mp (h.jumpsWithin hr kind label hjump hkind))
      exact mem_marks.mpr (mem_flatMap.mpr ⟨r, hr, hmark⟩)
  entry := by
    intro label hlabel
    obtain ⟨e, he, rfl⟩ := Option.mem_map.mp hlabel
    obtain ⟨p, hp, -, hpe⟩ := h.exists_function (h.entryLabel e he)
    rw [← hpe]
    exact h.label_mem_marks (mem_routines.mpr (.inr (.inr ⟨p, hp, rfl⟩)))

theorem reaches_iff {size : Int} {entry : Option Label} :
    Code.Reaches ⟨A.routines, size, entry⟩ label ↔ ∃ r ∈ A.routines, r.label = label := by
  constructor
  · intro hreach
    induction hreach with
    | @start r hhead => exact ⟨r, mem_of_mem_head? hhead, rfl⟩
    | call _ hr hcall _ => exact h.call_mem hr hcall
  · rintro ⟨r, hr, rfl⟩
    refine (h.reached (fun r => r ∈ A.routines ∧ Code.Reaches ⟨A.routines, size, entry⟩ r.label)
      ⟨loader_mem, .start rfl⟩ (fun r r' hr' hP hcall => ?_) r hr).2
    exact ⟨hr', .call hP.2 hP.1 hcall⟩

end Outline

theorem labelled_of_generate (h : generate engine program analysis = .ok code) : Labelled code := by
  obtain ⟨labels, A, hA, rfl⟩ := outline_of_generate h
  exact hA.labelled

theorem jumpsWithin_of_generate (h : generate engine program analysis = .ok code) :
    ∀ r ∈ code.routines, r.JumpsWithin := by
  obtain ⟨labels, A, hA, rfl⟩ := outline_of_generate h
  exact fun r hr => hA.jumpsWithin hr

theorem exists_split_of_sorted {entry : Option FuncId} {ps : List PlacedRoutine}
    (h : ps.Pairwise fun p q => Gen.precedes entry p q = true) :
    ∃ others last, ps = others ++ last ∧ (∀ p ∈ others, entry ≠ some p.func) ∧
      (∀ p ∈ last, entry = some p.func) ∧ others.Pairwise fun p q => p.index ≤ q.index := by
  induction ps with
  | nil => exact ⟨[], [], rfl, by simp, by simp, .nil⟩
  | cons p ps ih =>
    obtain ⟨hp, hps⟩ := pairwise_cons.mp h
    by_cases hlast : entry = some p.func
    · refine ⟨[], p :: ps, rfl, by simp, forall_mem_cons.mpr ⟨hlast, fun q hq => ?_⟩, .nil⟩
      have hq := hp q hq
      unfold Gen.precedes at hq
      grind
    · obtain ⟨others, last, rfl, hothers, hlasts, hordered⟩ := ih hps
      refine ⟨p :: others, last, rfl, forall_mem_cons.mpr ⟨hlast, hothers⟩, hlasts,
        pairwise_cons.mpr ⟨fun q hq => ?_, hordered⟩⟩
      have hpq := hp q (mem_append_left _ hq)
      have hq := hothers q hq
      unfold Gen.precedes at hpq
      grind

theorem Outline.entryLast {c : GenContext} {items : Program} {labels : List (FuncId × Label)}
    {A : Assembly} (h : Outline c items labels A) {others last : List PlacedRoutine}
    (hsplit : A.functions = others ++ last)
    (hothers : ∀ p ∈ others, c.analysis.entry.map EntryPoint.func ≠ some p.func)
    (hlast : ∀ p ∈ last, c.analysis.entry.map EntryPoint.func = some p.func) :
    last.map PlacedRoutine.func = c.analysis.entry.toList.map EntryPoint.func := by
  cases hentry : c.analysis.entry with
  | none =>
    rw [hentry] at hlast
    have hnil : last = [] := eq_nil_iff_forall_not_mem.mpr fun p hp => by cases hlast p hp
    rw [hnil]
    rfl
  | some e =>
    rw [hentry] at hothers hlast
    have hall : ∀ func ∈ last.map PlacedRoutine.func, func = e.func := by
      intro func hfunc
      obtain ⟨p, hp, rfl⟩ := mem_map.mp hfunc
      exact (Option.some.inj (hlast p hp)).symm
    have hnodup : (last.map PlacedRoutine.func).Nodup := by
      have hfuncs := h.funcs.nodup_iff.mpr h.once
      rw [hsplit, map_append] at hfuncs
      exact (nodup_append'.mp hfuncs).2.1
    have hmem : e.func ∈ last.map PlacedRoutine.func := by
      have hfst := h.entry
      rw [hentry] at hfst
      obtain ⟨found, hfound, rfl⟩ := Option.map_eq_some_iff.mp hfst
      obtain ⟨p, hp, hfunc, -⟩ := h.exists_function (h.entryLabel found hfound)
      rw [hsplit] at hp
      rcases mem_append.mp hp with hp | hp
      · exact absurd (congrArg some hfunc.symm) (hothers p hp)
      · exact hfunc ▸ mem_map_of_mem hp
    rw [eq_replicate_of_mem hall] at hnodup hmem ⊢
    have hone := nodup_replicate.mp hnodup
    have hpos : (last.map PlacedRoutine.func).length ≠ 0 := (mem_replicate.mp hmem).1
    have hlength : (last.map PlacedRoutine.func).length = 1 := by omega
    rw [hlength]
    rfl

/-- **Labels and reachability.** In code that was generated for a program, whatever its tables hold,
every label that is used is marked, and no label is marked twice. The routines are those that calls
lead to from the loader, and they stand in the order of their definitions, with the entry function
last. -/
theorem arranged_of_generate {engine : EngineTable} {program : Program} {analysis : Analysis}
    {code : Code} (h : generate engine program analysis = .ok code) : Labelled code ∧
      (∃ loader init others last, Arranged program analysis code loader init others last) ∧
      ∀ label, code.Reaches label ↔ ∃ r ∈ code.routines, r.label = label := by
  obtain ⟨labels, A, hA, rfl⟩ := outline_of_generate h
  refine ⟨hA.labelled, ?_, fun label => hA.reaches_iff⟩
  obtain ⟨others, last, hsplit, hothers, hlast, hordered⟩ := exists_split_of_sorted hA.sorted
  refine ⟨A.loader, A.init.toList, others, last, ?_, rfl, ?_, ?_, fun p hp => ?_, hordered,
    hA.entryLast hsplit hothers hlast⟩
  · rw [← hsplit]
    rfl
  · exact hA.initNames
  · rw [← hsplit]
    exact hA.funcs.nodup_iff.mpr hA.once
  · rw [← hsplit] at hp
    obtain ⟨decl, body, info, hitem, hinfo, hname, -⟩ := (hA.functions p hp).code
    exact ⟨(hA.functions p hp).definition, decl, body, info, hitem, hinfo, hname⟩

theorem arranged_of_generate_sample : ∃ code,
    generate Sample.engine Sample.program (check Sample.engine Sample.program).analysis = .ok code ∧
    Labelled code ∧ (∃ loader init others last, Arranged Sample.program
        (check Sample.engine Sample.program).analysis code loader init others last) ∧
      ∀ label, code.Reaches label ↔ ∃ r ∈ code.routines, r.label = label := by
  obtain ⟨code, hcode⟩ := Sample.generated
  exact ⟨code, hcode, arranged_of_generate hcode⟩

end Nwscript
