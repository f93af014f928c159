import Nwscript.Proofs.Include.Expansion
import Nwscript.Proofs.Blind.Check
import Nwscript.Proofs.Typing.Program
import Nwscript.Unit.Compile

/-! # How compilations end

A compilation is loaded, expanded, read and checked; then its diagnostics stop it, or code is generated
and linked. The state, the object, the diagnostics and the fatal error of its output agree however it
ends. It has no output where the check is stuck, and that it can only be with an error. -/

open List

namespace Nwscript

open LoadState Load

/-! ## Stages -/

def entryFile (name source : String) : SourceFile := ⟨normalizeName name, source, .entry, none⟩

namespace Compiler

def load (c : Compiler) (unitDir : Option Provider) (name source : String) :
    EStateM.Result Fatal LoadState (List Inclusion) :=
  loadIncludes c.resolver unitDir ⟨#[entryFile name source]⟩ 0

def parsed (c : Compiler) (x : Expansion) : Parsed := parse c.engine.typeNames x.tokens

def checked (c : Compiler) (x : Expansion) : Checked := check c.engine (c.parsed x).program

def found (c : Compiler) (s : LoadState) (x : Expansion) : List Diagnostic :=
  s.diagnostics ++ x.errors.map LexError.diagnostic ++ (c.parsed x).diagnostics ++
    (c.checked x).diagnostics

def unitWith (c : Compiler) (name : String) (state : UnitState) (files : SourceFiles)
    (ds : List Diagnostic) : CompileUnit :=
  { c.newUnit name with state, sources := files }.report ds

end Compiler

theorem CompileUnit.report_report (u : CompileUnit) (ds es : List Diagnostic) :
    (u.report ds).report es = u.report (ds ++ es) := by
  simp only [report, append_assoc, map_append]
  rfl

inductive Compiles (c : Compiler) (unitDir : Option Provider) (name source : String) :
    Option CompileOutput → Prop where
  | unloaded {e s} : c.load unitDir name source = .error e s →
      Compiles c unitDir name source
        (some (Compiler.failed (c.unitWith name .resolvingIncludes s.files s.diagnostics) e))
  | stuck {tree s x} :
      c.load unitDir name source = .ok tree s → expand s.files 0 tree = .ok x →
      (c.checked x).stuck = true → Compiles c unitDir name source none
  | blocked {tree s x} :
      c.load unitDir name source = .ok tree s → expand s.files 0 tree = .ok x →
      (c.checked x).stuck = false → blocksGeneration (c.found s x) c.warningsAsErrors = true →
      Compiles c unitDir name source
        (some (Compiler.output (c.unitWith name .failed s.files (c.found s x)) none none))
  | ungenerated {tree s x f} :
      c.load unitDir name source = .ok tree s → expand s.files 0 tree = .ok x →
      (c.checked x).stuck = false →
      generate c.engine (c.parsed x).program (c.checked x).analysis = .error f →
      Compiles c unitDir name source
        (some (Compiler.failed (c.unitWith name .generating s.files (c.found s x)) f.fatal))
  | unlinked {tree s x code f} :
      c.load unitDir name source = .ok tree s → expand s.files 0 tree = .ok x →
      (c.checked x).stuck = false →
      generate c.engine (c.parsed x).program (c.checked x).analysis = .ok code →
      link code = .error f →
      Compiles c unitDir name source
        (some (Compiler.failed (c.unitWith name .emitting s.files (c.found s x)) f.fatal))
  | done {tree s x object} :
      c.load unitDir name source = .ok tree s → expand s.files 0 tree = .ok x →
      (c.checked x).stuck = false → blocksGeneration (c.found s x) c.warningsAsErrors = false →
      Compiles c unitDir name source
        (some (Compiler.output (c.unitWith name .done s.files (c.found s x)) (some object) none))

theorem blocksGeneration_report (u : CompileUnit) (ds : List Diagnostic) (w : Bool)
    (hu : u.diagnostics = []) :
    blocksGeneration (u.report ds).diagnostics w = blocksGeneration ds w := by
  rw [CompileUnit.report, hu, nil_append, blocksGeneration, any_map]
  rfl

variable {s : LoadState} {tree : List Inclusion} {state : UnitState} {ds : List Diagnostic}

section Run

variable {c : Compiler} {unitDir : Option Provider} {name source : String}

variable {α : Type}

theorem compile_get_bind (k : CompileUnit → Compile α) (u : CompileUnit) : (get >>= k) u = k u u := rfl

theorem loadAll_error {e : Fatal} (h : c.load unitDir name source = .error e s) :
    Compile.loadAll c unitDir source (c.newUnit name) =
      .error (.fatal e) (c.unitWith name .resolvingIncludes s.files s.diagnostics) := by
  have hadd : (c.newUnit name).sources.add ⟨(c.newUnit name).name, source, .entry, none⟩ =
      (0, ⟨#[entryFile name source]⟩) := rfl
  rw [Compiler.load] at h
  unfold Compile.loadAll
  rw [compile_get_bind, hadd]
  dsimp only
  rw [h]
  rfl

theorem loadAll_ok (h : c.load unitDir name source = .ok tree s) :
    Compile.loadAll c unitDir source (c.newUnit name) =
      .ok (0, tree) (c.unitWith name .resolvingIncludes s.files s.diagnostics) := by
  have hadd : (c.newUnit name).sources.add ⟨(c.newUnit name).name, source, .entry, none⟩ =
      (0, ⟨#[entryFile name source]⟩) := rfl
  rw [Compiler.load] at h
  unfold Compile.loadAll
  rw [compile_get_bind, hadd]
  dsimp only
  rw [h]
  rfl

theorem enter_ok {next : UnitState} (hnext : state.next? = some next) (files : SourceFiles)
    (ds : List Diagnostic) :
    Compile.enter next (c.unitWith name state files ds) = .ok () (c.unitWith name next files ds) := by
  cases state <;> cases hnext <;> rfl

theorem report_ok (state : UnitState) (files : SourceFiles) (ds es : List Diagnostic) :
    Compile.report es (c.unitWith name state files ds) =
      .ok () (c.unitWith name state files (ds ++ es)) := by
  rw [Compiler.unitWith, Compiler.unitWith, ← CompileUnit.report_report]
  rfl

theorem orFail_ok {ε : Type} (fatal : ε → Fatal) (a : α) (u : CompileUnit) :
    Compile.orFail fatal (.ok a) u = .ok a u := rfl

theorem orFail_error {ε : Type} (fatal : ε → Fatal) (e : ε) (u : CompileUnit) :
    (Compile.orFail fatal (.error e) : Compile α) u = .error (.fatal (fatal e)) u := rfl

theorem compiles_of_loaded {x : Expansion} (hload : c.load unitDir name source = .ok tree s)
    (hexpand : expand s.files 0 tree = .ok x) :
    Compiles c unitDir name source (c.compileUnit name source unitDir) := by
  have htokens (ds : List Diagnostic) :
      Compile.allTokens 0 tree (c.unitWith name .lexing s.files ds) =
        .ok x.tokens (c.unitWith name .lexing s.files
          (ds ++ x.errors.map LexError.diagnostic)) := by
    unfold Compile.allTokens
    rw [compile_get_bind, show (c.unitWith name .lexing s.files ds).sources = s.files from rfl, hexpand]
    dsimp only
    rw [run_bind_ok (report_ok _ _ _ _)]
    rfl
  rw [Compiler.compileUnit, Compile.run, run_bind_ok (loadAll_ok hload)]
  dsimp only
  rw [run_bind_ok (enter_ok rfl _ _), run_bind_ok (htokens _), run_bind_ok (enter_ok rfl _ _),
    run_bind_ok (report_ok _ _ _ _), run_bind_ok (enter_ok rfl _ _)]
  by_cases hstuck : (check c.engine (parse c.engine.typeNames x.tokens).program).stuck = true
  · rw [if_pos hstuck]
    exact .stuck hload hexpand hstuck
  rw [if_neg hstuck, run_bind_ok (report_ok _ _ _ _), compile_get_bind]
  have hgoes : (c.checked x).stuck = false := Bool.eq_false_of_not_eq_true hstuck
  have hblocks : blocksGeneration (c.unitWith name .analyzing s.files (c.found s x)).diagnostics
      c.warningsAsErrors = blocksGeneration (c.found s x) c.warningsAsErrors :=
    blocksGeneration_report _ _ _ rfl
  have hfound : s.diagnostics ++ x.errors.map LexError.diagnostic ++
      (parse c.engine.typeNames x.tokens).diagnostics ++
      (check c.engine (parse c.engine.typeNames x.tokens).program).diagnostics = c.found s x := rfl
  rw [hfound]
  cases hb : blocksGeneration (c.found s x) c.warningsAsErrors with
  | true =>
    rw [hb] at hblocks
    rw [if_pos hblocks]
    exact .blocked hload hexpand hgoes hb
  | false =>
    rw [hb] at hblocks
    rw [if_neg (by rw [hblocks]; exact Bool.false_ne_true), run_bind_ok (enter_ok rfl _ _)]
    cases hgen : generate c.engine (parse c.engine.typeNames x.tokens).program
        (check c.engine (parse c.engine.typeNames x.tokens).program).analysis with
    | error f =>
      rw [run_bind_error (orFail_error GenFault.fatal f _)]
      exact .ungenerated hload hexpand hgoes hgen
    | ok code =>
      rw [run_bind_ok (orFail_ok GenFault.fatal code _), run_bind_ok (enter_ok rfl _ _)]
      cases hlink : link code with
      | error f =>
        rw [run_bind_error (orFail_error LinkFault.fatal f _)]
        exact .unlinked hload hexpand hgoes hgen hlink
      | ok object =>
        rw [run_bind_ok (orFail_ok LinkFault.fatal object _), run_bind_ok (enter_ok rfl _ _)]
        exact .done hload hexpand hgoes hb

theorem compiles (c : Compiler) (unitDir : Option Provider) (name source : String) :
    Compiles c unitDir name source (c.compileUnit name source unitDir) := by
  cases hload : c.load unitDir name source with
  | error e s =>
    have hrun : Compile.run c unitDir source (c.newUnit name) =
        .error (.fatal e) (c.unitWith name .resolvingIncludes s.files s.diagnostics) := by
      rw [Compile.run, run_bind_error (loadAll_error hload)]
    rw [Compiler.compileUnit, hrun]
    exact .unloaded hload
  | ok tree s =>
    have hfollows := describes_file c.resolver unitDir c.resolver.maxDepth _ _ _ _ _ _ hload
    have hfile : s.files.get? 0 = some (entryFile name source) := by
      rw [get?_eq]
      exact kept_of_grows hfollows.grows rfl
    obtain ⟨out, hexpand, -⟩ := hfollows.expands hfile
    exact compiles_of_loaded hload hexpand

end Run

/-! ## Places and chains -/

def InFiles (files : SourceFiles) (ds : List Diagnostic) : Prop :=
  ∀ d ∈ ds, ∃ pos, d.pos = some pos ∧ pos.file < files.size

/-- A diagnostic that points into a file, with a chain from the entry file to that file. -/
def Pointed (files : SourceFiles) (unitName : String) (d : Diagnostic) : Prop :=
  ∃ pos file, d.pos = some pos ∧ files.get? pos.file = some file ∧
    d.chain.head? = some unitName ∧ d.chain.getLast? = some file.name

def Diagnostic.chained (unitName : String) (files : SourceFiles) (d : Diagnostic) : Diagnostic :=
  { d with chain := (d.pos.map fun pos => files.chain pos.file).getD [unitName] }

theorem diagnostics_unitWith (c : Compiler) (name : String) (state : UnitState)
    (files : SourceFiles) (ds : List Diagnostic) : (c.unitWith name state files ds).diagnostics =
      ds.map (Diagnostic.chained (normalizeName name) files) := by
  show [] ++ ds.map _ = _
  rw [nil_append]
  refine map_congr_left fun d _ => ?_
  cases hpos : d.pos with
  | none => simp only [CompileUnit.chainOf, Diagnostic.chained, hpos, Option.map_none,
      Option.getD_none, Compiler.newUnit]
  | some pos => simp only [CompileUnit.chainOf, Diagnostic.chained, hpos, Option.map_some,
      Option.getD_some]

theorem pointed_chained {name source : String} {files : SourceFiles}
    (hfiles : files.Rooted (entryFile name source)) (hds : InFiles files ds) :
    ∀ d ∈ ds.map (Diagnostic.chained (normalizeName name) files),
      Pointed files (normalizeName name) d := by
  intro d hd
  obtain ⟨d, hmem, rfl⟩ := mem_map.mp hd
  obtain ⟨pos, hpos, hlt⟩ := hds d hmem
  obtain ⟨hhead, file, hfile, hlast⟩ := (hfiles.path_chain hlt).ends hfiles.entry_first
  have hchain : (d.chained (normalizeName name) files).chain = files.chain pos.file := by
    simp only [Diagnostic.chained, hpos, Option.map_some, Option.getD_some]
  exact ⟨pos, file, hpos, hfile, by rw [hchain, hhead]; rfl, by rw [hchain, hlast]⟩

section Loaded

variable {c : Compiler} {unitDir : Option Provider} {name source : String}

theorem load_reaches (c : Compiler) (unitDir : Option Provider) (name source : String) :
    Reaches { files := ⟨#[entryFile name source]⟩ } (stateOf (c.load unitDir name source)) :=
  steps_file c.resolver unitDir c.resolver.maxDepth _ 0 source _ Nat.zero_lt_one

theorem load_rooted (c : Compiler) (unitDir : Option Provider) (name source : String) :
    (stateOf (c.load unitDir name source)).files.Rooted (entryFile name source) :=
  (load_reaches c unitDir name source).rooted
    ⟨rfl, rfl, fun _ _ hfile hid => absurd (SourceFiles.get?_lt hfile) (Nat.not_lt.mpr hid)⟩

theorem load_notes (c : Compiler) (unitDir : Option Provider) (name source : String)
    (hs : stateOf (c.load unitDir name source) = s) :
    InFiles s.files s.diagnostics ∧ ∀ d ∈ s.diagnostics, d.stage = .including := by
  have hnoted := (load_reaches c unitDir name source).noted
    (by simp [Noted, fileList, diagnostics, entryFile])
  have hrooted := load_rooted c unitDir name source
  rw [hs] at hnoted hrooted
  have hnote (d : Diagnostic) (hd : d ∈ s.diagnostics) : ∃ file ∈ s.fileList, Notes file d := by
    obtain ⟨i, hi, rfl⟩ := getElem_of_mem hd
    have hlength := hnoted.length_eq
    refine ⟨_, mem_of_mem_filter (getElem_mem (hlength ▸ hi)), ?_⟩
    exact hnoted.get (hlength ▸ hi) hi
  refine ⟨fun d hd => ?_, fun d hd => ?_⟩
  · obtain ⟨file, hfile, pos, rfl, hparent⟩ := hnote d hd
    obtain ⟨id, hid, rfl⟩ := getElem_of_mem hfile
    have hget : s.files.get? id = some s.fileList[id] := by
      rw [get?_eq, getElem?_eq_getElem hid]
    have hpos : 0 < id := by
      rcases Nat.eq_zero_or_pos id with rfl | hpos
      · have hentry := Option.some.inj (hget.symm.trans hrooted.entry_first)
        rw [hentry] at hparent
        cases hparent
      · exact hpos
    obtain ⟨p, hp, hparent'⟩ := hrooted.parent_lt id _ hget hpos
    cases hparent'.symm.trans hparent
    rw [length_fileList] at hid
    exact ⟨pos, rfl, hp.trans hid⟩
  · obtain ⟨file, hfile, pos, rfl, hparent⟩ := hnote d hd
    rfl

theorem found_inFiles {x : Expansion} (hload : c.load unitDir name source = .ok tree s)
    (hexpand : expand s.files 0 tree = .ok x) : InFiles s.files (c.found s x) := by
  have hfollows := describes_file c.resolver unitDir c.resolver.maxDepth _ _ _ _ _ _ hload
  have hfile : s.files.get? 0 = some (entryFile name source) := by
    rw [get?_eq]
    exact kept_of_grows hfollows.grows rfl
  obtain ⟨out, hout, hsplices⟩ := hfollows.expands hfile
  obtain rfl := Except.ok.inj (hexpand.symm.trans hout)
  have hplaces : ∀ r ∈ out, (resultPos r).file < s.files.size := by
    intro r hr
    have hsize := hfollows.size_le
    rcases mem_cons.mp (hsplices.file_mem (fun r hr => file_of_mem_lex hr) r hr) with h | h
    · rw [h]
      exact SourceFiles.get?_lt hfile
    · rw [includedFiles, hfollows.keys, mem_range'_1, Nat.add_sub_cancel' hsize] at h
      exact h.2
  have htokens : ∀ t ∈ keepTokens out, t.pos.file < s.files.size :=
    fun t ht => hplaces _ (mem_keepTokens.mp ht)
  have hwithin := parse_within (P := fun p => p.file < s.files.size) c.engine.typeNames htokens
  obtain ⟨hparsed, hchecked⟩ := found_within (SourceFiles.get?_lt hfile) c.engine hwithin
  intro d hd
  rw [Compiler.found, mem_append, mem_append, mem_append] at hd
  rcases hd with ((hd | hd) | hd) | hd
  · exact (load_notes c unitDir name source (by rw [hload]; rfl)).1 d hd
  · obtain ⟨e, he, rfl⟩ := mem_map.mp hd
    exact ⟨e.pos, rfl, hplaces _ (mem_keepErrors.mp he)⟩
  · obtain ⟨e, he, rfl⟩ := mem_map.mp hd
    exact ⟨e.pos, rfl, hparsed e he⟩
  · obtain ⟨f, hf, rfl⟩ := mem_map.mp hd
    exact ⟨f.pos, rfl, hchecked f hf⟩

/-! ## The order of stages -/

def StageOrder (ds : List Diagnostic) : Prop := ds.Pairwise fun a b => a.stage.rank ≤ b.stage.rank

theorem stageOrder_of_eq {stage : Stage} (h : ∀ d ∈ ds, d.stage = stage) : StageOrder ds :=
  pairwise_of_forall_mem_list fun a ha b hb => by rw [h a ha, h b hb]

theorem StageOrder.append {es : List Diagnostic} {stage : Stage} (hds : StageOrder ds)
    (hle : ∀ d ∈ ds, d.stage.rank ≤ stage.rank) (hes : ∀ d ∈ es, d.stage = stage) :
    StageOrder (ds ++ es) := by
  refine pairwise_append.mpr ⟨hds, stageOrder_of_eq hes, fun a ha b hb => ?_⟩
  rw [hes b hb]
  exact hle a ha

theorem StageOrder.chained (h : StageOrder ds) (unitName : String) (files : SourceFiles) :
    StageOrder (ds.map (Diagnostic.chained unitName files)) :=
  pairwise_map.mpr h

theorem found_stageOrder (c : Compiler) (x : Expansion)
    (hnotes : ∀ d ∈ s.diagnostics, d.stage = .including) :
    StageOrder (c.found s x) ∧ ∀ d ∈ c.found s x, d.stage.rank ≤ Stage.analyze.rank := by
  have hlex : ∀ d ∈ x.errors.map LexError.diagnostic, d.stage = .lex := by
    simp [LexError.diagnostic]
  have hparse : ∀ d ∈ (c.parsed x).diagnostics, d.stage = .parse := by
    simp [Parsed.diagnostics, SyntaxError.diagnostic]
  have hcheck : ∀ d ∈ (c.checked x).diagnostics, d.stage = .analyze := by
    simp [Checked.diagnostics, Finding.diagnostic]
  have hle {ds : List Diagnostic} {stage : Stage} (h : ∀ d ∈ ds, d.stage = stage) (later : Stage)
      (hrank : stage.rank ≤ later.rank) : ∀ d ∈ ds, d.stage.rank ≤ later.rank :=
    fun d hd => by rw [h d hd]; exact hrank
  have happend {ds es : List Diagnostic} {n : Nat} (hd : ∀ d ∈ ds, d.stage.rank ≤ n)
      (he : ∀ d ∈ es, d.stage.rank ≤ n) : ∀ d ∈ ds ++ es, d.stage.rank ≤ n :=
    forall_mem_append.mpr ⟨hd, he⟩
  constructor
  · refine StageOrder.append (.append (.append (stageOrder_of_eq hnotes) ?_ hlex) ?_ hparse) ?_ hcheck
    · exact hle hnotes .lex (by decide)
    · exact happend (hle hnotes .parse (by decide)) (hle hlex .parse (by decide))
    · exact happend (happend (hle hnotes .analyze (by decide)) (hle hlex .analyze (by decide)))
        (hle hparse .analyze (by decide))
  · exact happend (happend (happend (hle hnotes .analyze (by decide))
      (hle hlex .analyze (by decide))) (hle hparse .analyze (by decide))) (hle hcheck .analyze (by decide))

end Loaded

/-! ## Outcomes -/

inductive FailsAt (c : Compiler) (unitDir : Option Provider) (name source : String) :
    Stage → Fatal → Prop where
  | including {e s} : c.load unitDir name source = .error e s →
      FailsAt c unitDir name source .including e
  | generate {tree s x f} :
      c.load unitDir name source = .ok tree s → expand s.files 0 tree = .ok x →
      generate c.engine (c.parsed x).program (c.checked x).analysis = .error f →
      FailsAt c unitDir name source .generate f.fatal
  | emit {tree s x code f} :
      c.load unitDir name source = .ok tree s → expand s.files 0 tree = .ok x →
      generate c.engine (c.parsed x).program (c.checked x).analysis = .ok code →
      link code = .error f → FailsAt c unitDir name source .emit f.fatal

def CompileOutput.collected (o : CompileOutput) : List Diagnostic :=
  if o.fatal.isSome then o.diagnostics.dropLast else o.diagnostics

structure Concluded (c : Compiler) (unitDir : Option Provider) (name source : String)
    (o : CompileOutput) : Prop where
  name_eq : o.name = normalizeName name
  ended : o.state = .done ∨ o.state = .failed
  object_iff : o.object.isSome = true ↔ o.state = .done
  /-- A unit with an object has no fatal error and no diagnostic that stops it. -/
  clean : o.object.isSome = true → o.fatal = none ∧ ∀ d ∈ o.diagnostics,
    d.severity ≠ .error ∧ (c.warningsAsErrors = true → d.severity ≠ .warning)
  /-- A unit without one has a fatal error, which is its last diagnostic, or one that stops it. -/
  broken : o.object = none →
    (∃ e last, o.fatal = some e ∧ o.diagnostics = o.collected ++ [last] ∧
      last.severity = .error ∧ last.message = e.message ∧
      FailsAt c unitDir name source last.stage e) ∨
    o.fatal = none ∧ ∃ d ∈ o.diagnostics, d.blocks c.warningsAsErrors = true
  ordered : StageOrder o.diagnostics
  pointed : ∀ d ∈ o.collected,
    Pointed (stateOf (c.load unitDir name source)).files o.name d

section Outcomes

variable {c : Compiler} {unitDir : Option Provider} {name source : String}

theorem concluded_failed {e : Fatal} (hs : stateOf (c.load unitDir name source) = s)
    (hstate : state.isTerminal = false) (hfails : FailsAt c unitDir name source state.stage e)
    (hds : InFiles s.files ds) (horder : StageOrder ds)
    (hle : ∀ d ∈ ds, d.stage.rank ≤ state.stage.rank) :
    Concluded c unitDir name source (Compiler.failed (c.unitWith name state s.files ds) e) := by
  set last : Diagnostic :=
    { stage := state.stage, severity := .error, code := e.code, message := e.message,
      chain := e.chainIn (normalizeName name) } with hlast
  set o := Compiler.failed (c.unitWith name state s.files ds) e with ho
  have hstate' : o.state = .failed := by
    show (if state.isTerminal then state else UnitState.failed) = _
    rw [hstate]
    rfl
  have hdiags : o.diagnostics =
      ds.map (Diagnostic.chained (normalizeName name) s.files) ++ [last] := by
    rw [← diagnostics_unitWith c name state]
    rfl
  have hcollected : o.collected = ds.map (Diagnostic.chained (normalizeName name) s.files) := by
    show o.diagnostics.dropLast = _
    rw [hdiags, dropLast_concat]
  have horder' : StageOrder o.diagnostics := by
    have hstage : ∀ d ∈ [last], d.stage = state.stage := by simp [hlast]
    rw [hdiags]
    refine StageOrder.append (horder.chained _ _) (fun d hd => ?_) hstage
    obtain ⟨d, hmem, rfl⟩ := mem_map.mp hd
    exact hle d hmem
  have hpointed : ∀ d ∈ o.collected,
      Pointed (stateOf (c.load unitDir name source)).files o.name d := by
    rw [hcollected, hs]
    exact pointed_chained (hs ▸ load_rooted c unitDir name source) hds
  have hnone : ¬o.object.isSome = true := Bool.false_ne_true
  exact {
    name_eq := rfl
    ended := .inr hstate'
    object_iff := ⟨fun h => absurd h hnone, fun h => by rw [hstate'] at h; cases h⟩
    clean := fun h => absurd h hnone
    broken := fun _ => .inl ⟨e, last, rfl, by rw [hcollected, hdiags], rfl, rfl, hfails⟩
    ordered := horder'
    pointed := hpointed }

theorem severity_of_not_blocks {w : Bool} {d : Diagnostic} (h : d.blocks w = false) :
    d.severity ≠ .error ∧ (w = true → d.severity ≠ .warning) := by
  rw [Diagnostic.blocks] at h
  cases hs : d.severity with
  | error => simp [hs] at h
  | warning => simpa [hs] using h
  | info => simp

theorem concluded_output {object : Option Object} (hs : stateOf (c.load unitDir name source) = s)
    (hstate : state = if object.isSome then .done else .failed)
    (hobject : object.isSome = !blocksGeneration ds c.warningsAsErrors) (hds : InFiles s.files ds)
    (horder : StageOrder ds) : Concluded c unitDir name source
      (Compiler.output (c.unitWith name state s.files ds) object none) := by
  set o := Compiler.output (c.unitWith name state s.files ds) object none with ho
  have hdiags : o.diagnostics = ds.map (Diagnostic.chained (normalizeName name) s.files) :=
    diagnostics_unitWith c name state s.files ds
  have hblocks : o.diagnostics.any (Diagnostic.blocks c.warningsAsErrors) =
      blocksGeneration ds c.warningsAsErrors := by
    rw [hdiags, any_map]
    rfl
  have hpointed : ∀ d ∈ o.collected,
      Pointed (stateOf (c.load unitDir name source)).files o.name d := by
    rw [show o.collected = o.diagnostics from rfl, hdiags, hs]
    exact pointed_chained (hs ▸ load_rooted c unitDir name source) hds
  have hclean (h : object.isSome = true) (d : Diagnostic) (hd : d ∈ o.diagnostics) :
      d.severity ≠ .error ∧ (c.warningsAsErrors = true → d.severity ≠ .warning) := by
    rw [hobject, ← hblocks, Bool.not_eq_true', any_eq_false] at h
    exact severity_of_not_blocks (Bool.not_eq_true _ ▸ h d hd)
  have hbroken (h : object = none) : ∃ d ∈ o.diagnostics, d.blocks c.warningsAsErrors = true := by
    rw [h, ← hblocks] at hobject
    exact any_eq_true.mp (by simpa using hobject.symm)
  exact {
    name_eq := rfl
    ended := by
      show state = .done ∨ state = .failed
      cases object <;> simp [hstate]
    object_iff := by
      show object.isSome = true ↔ state = .done
      cases object <;> simp [hstate]
    clean := fun h => ⟨rfl, hclean h⟩
    broken := fun h => .inr ⟨rfl, hbroken h⟩
    ordered := by
      rw [hdiags]
      exact horder.chained _ _
    pointed := hpointed }

theorem Compiles.concluded {o : CompileOutput} (h : Compiles c unitDir name source (some o)) :
    Concluded c unitDir name source o := by
  generalize ho : some o = r at h
  cases h with
  | stuck => cases ho
  | @unloaded e s hload =>
    obtain rfl := Option.some.inj ho
    have hs : stateOf (c.load unitDir name source) = s := by rw [hload]; rfl
    obtain ⟨hfiles, hstage⟩ := load_notes c unitDir name source hs
    exact concluded_failed hs rfl (.including hload) hfiles (stageOrder_of_eq hstage)
      fun d hd => by rw [hstage d hd]; decide
  | @blocked tree s x hload hexpand _ hblocks =>
    obtain rfl := Option.some.inj ho
    have hs : stateOf (c.load unitDir name source) = s := by rw [hload]; rfl
    obtain ⟨horder, -⟩ := found_stageOrder c x (load_notes c unitDir name source hs).2
    exact concluded_output hs rfl (by rw [hblocks]; rfl) (found_inFiles hload hexpand) horder
  | @ungenerated tree s x f hload hexpand _ hgen =>
    obtain rfl := Option.some.inj ho
    have hs : stateOf (c.load unitDir name source) = s := by rw [hload]; rfl
    obtain ⟨horder, hle⟩ := found_stageOrder c x (load_notes c unitDir name source hs).2
    exact concluded_failed hs rfl (.generate hload hexpand hgen) (found_inFiles hload hexpand) horder
      fun d hd => (hle d hd).trans (by decide)
  | @unlinked tree s x code f hload hexpand _ hgen hlink =>
    obtain rfl := Option.some.inj ho
    have hs : stateOf (c.load unitDir name source) = s := by rw [hload]; rfl
    obtain ⟨horder, hle⟩ := found_stageOrder c x (load_notes c unitDir name source hs).2
    exact concluded_failed hs rfl (.emit hload hexpand hgen hlink) (found_inFiles hload hexpand)
      horder fun d hd => (hle d hd).trans (by decide)
  | @done tree s x object hload hexpand _ hblocks =>
    obtain rfl := Option.some.inj ho
    have hs : stateOf (c.load unitDir name source) = s := by rw [hload]; rfl
    obtain ⟨horder, -⟩ := found_stageOrder c x (load_notes c unitDir name source hs).2
    exact concluded_output hs rfl (by rw [hblocks]; rfl) (found_inFiles hload hexpand) horder

end Outcomes

/-! ## Checks that get stuck -/

section Stuck

variable {c : Compiler} {unitDir : Option Provider} {name source : String} {x : Expansion}

theorem compileUnit_eq_none : c.compileUnit name source unitDir = none ↔
    ∃ tree s x, c.load unitDir name source = .ok tree s ∧ expand s.files 0 tree = .ok x ∧
      (c.checked x).stuck = true := by
  have hcompiles := compiles c unitDir name source
  constructor
  · intro hnone
    rw [hnone] at hcompiles
    cases hcompiles with
    | stuck hload hexpand hstuck => exact ⟨_, _, _, hload, hexpand, hstuck⟩
  · rintro ⟨tree, s, x, hload, hexpand, hstuck⟩
    -- Loading and expansion have one result, whose check does not both go on and get stuck.
    have hclash {tree' s' x'} (hload' : c.load unitDir name source = .ok tree' s')
        (hexpand' : expand s'.files 0 tree' = .ok x') (hgoes : (c.checked x').stuck = false) : False := by
      obtain ⟨rfl, rfl⟩ := EStateM.Result.ok.inj (hload.symm.trans hload')
      obtain rfl := Except.ok.inj (hexpand.symm.trans hexpand')
      cases hstuck.symm.trans hgoes
    generalize c.compileUnit name source unitDir = o at hcompiles
    cases hcompiles with
    | unloaded hload' => cases hload.symm.trans hload'
    | stuck => rfl
    | blocked hload' hexpand' hgoes => exact (hclash hload' hexpand' hgoes).elim
    | ungenerated hload' hexpand' hgoes => exact (hclash hload' hexpand' hgoes).elim
    | unlinked hload' hexpand' hgoes => exact (hclash hload' hexpand' hgoes).elim
    | done hload' hexpand' hgoes => exact (hclash hload' hexpand' hgoes).elim

/-- A check that gets stuck has found an error, or the parser has before it. -/
theorem error_of_stuck (h : (c.checked x).stuck = true) : ∃ d ∈ c.found s x, d.severity = .error := by
  by_contra hnone
  have hclean (d : Diagnostic) (hd : d ∈ c.found s x) : d.severity ≠ .error := fun he => hnone ⟨d, hd, he⟩
  simp only [Compiler.found, mem_append] at hclean
  have hparsed : (c.parsed x).errors = [] := by
    refine eq_nil_iff_forall_not_mem.mpr fun e he => ?_
    exact hclean e.diagnostic (.inl (.inr (mem_map_of_mem he))) rfl
  have hchecked (f : Finding) (hf : f ∈ (c.checked x).findings) : f.problem.severity ≠ .error :=
    hclean f.diagnostic (.inr (mem_map_of_mem hf))
  have hpasses := Check.check_passes (parse_between _ x.tokens).nodup (parse_defaultsTrail hparsed) hchecked
  cases h.symm.trans hpasses.stuck

end Stuck

/-- **How units end.** The state, the object, the diagnostics and the fatal error of every output agree.
A unit has no output if and only if its check gets stuck, and then something in it is wrong. -/
theorem Compiler.compileUnit_concluded (c : Compiler) (unitDir : Option Provider)
    (name source : String) :
    (∀ o ∈ c.compileUnit name source unitDir, Concluded c unitDir name source o) ∧
    (c.compileUnit name source unitDir = none ↔
      ∃ tree s x, c.load unitDir name source = .ok tree s ∧ expand s.files 0 tree = .ok x ∧
        (c.checked x).stuck = true) ∧
    ∀ tree s x, c.load unitDir name source = .ok tree s → expand s.files 0 tree = .ok x →
      (∀ d ∈ c.found s x, d.severity ≠ .error) → (c.compileUnit name source unitDir).isSome = true := by
  have hcompiles := compiles c unitDir name source
  refine ⟨fun o ho => Compiles.concluded (ho ▸ hcompiles), compileUnit_eq_none, ?_⟩
  intro tree s x hload hexpand hclean
  rw [Option.isSome_iff_ne_none]
  intro hnone
  obtain ⟨tree', s', x', hload', hexpand', hstuck⟩ := compileUnit_eq_none.mp hnone
  obtain ⟨rfl, rfl⟩ := EStateM.Result.ok.inj (hload.symm.trans hload')
  obtain rfl := Except.ok.inj (hexpand.symm.trans hexpand')
  obtain ⟨d, hd, herror⟩ := error_of_stuck hstuck
  exact hclean d hd herror

namespace Sample

def engineless : Compiler := { engine := { version := "", checksum := 0 } }

end Sample

theorem Compiler.compileUnit_concluded_main : ∃ o,
    Sample.engineless.compileUnit "main" "void main() { }" none = some o ∧ o.state = .done ∧
      Concluded Sample.engineless none "main" "void main() { }" o := by
  have hstate : (Sample.engineless.compileUnit "main" "void main() { }" none).map CompileOutput.state =
      some .done := by decide +kernel
  obtain ⟨o, ho, hdone⟩ := Option.map_eq_some_iff.mp hstate
  exact ⟨o, ho, hdone, (compileUnit_concluded Sample.engineless none "main" "void main() { }").1 o ho⟩

/-- The constant of a structure type holds a vector, which has nothing where the field is. -/
theorem Compiler.compileUnit_stuck : Sample.engineless.compileUnit "main"
    "struct S { int a; int b; int c; int d; }; const struct S s = [1.0, 2.0, 3.0]; int x = s.d;" none =
    none := by
  decide +kernel

end Nwscript
