import Nwscript.Proofs.Code.Program

/-! # Programs without errors

A program that was read and checked without errors has code: of all that code generation guards
against, only an overflow of 32 bits is left. -/

namespace Nwscript

/-- A program that was read and checked without errors, with an engine table that was read from a
definition script. -/
structure Accepted (engine : EngineTable) (program : Program) : Prop where
  table : ∃ version script, EngineTable.ofSource version script = .ok engine
  parsed : ∃ tokens, (parse engine.typeNames tokens).errors = [] ∧
    (parse engine.typeNames tokens).program = program
  checked : ∀ f ∈ (check engine program).findings, f.problem.severity ≠ .error

/-- No depth and no offset leaves the range of 32-bit numbers while the code of a program is
generated. -/
def NoOverflow (engine : EngineTable) (program : Program) : Prop :=
  ∀ bytes, generate engine program (check engine program).analysis ≠ .error (.overflow bytes)

instance (t : StructTable) : Decidable t.Small :=
  inferInstanceAs (Decidable (∀ d ∈ t.defs, (d.fields.map fun f => t.sizeOf f.type).sum < 65536))

namespace Accepted

variable {engine : EngineTable} {program : Program}

theorem nodup (h : Accepted engine program) : program.ids.Nodup := by
  obtain ⟨tokens, -, rfl⟩ := h.parsed
  exact (parse_between _ tokens).nodup

theorem passes (h : Accepted engine program) :
    Check.Passes engine program (Check.collected engine program) (Check.checkedItems engine program)
      (Check.checkEntry (Check.checkedItems engine program)).2 := by
  have hnodup := h.nodup
  obtain ⟨tokens, herrors, rfl⟩ := h.parsed
  exact Check.check_passes hnodup (parse_defaultsTrail herrors) h.checked

theorem programOk (h : Accepted engine program) :
    ProgramOk engine (check engine program).analysis program := h.passes.programOk

theorem functionOk (h : Accepted engine program) {index : Nat} {decl : FunctionDecl} {body : List Stmt}
    (hitem : program[index]? = some (.function decl body)) :
    ∃ f, Check.IsDefinedBy (check engine program).analysis decl.name index f ∧
      FunctionOk engine (check engine program).analysis decl body f := by
  obtain ⟨func, f, hf, hname, hdefined, hindex⟩ := h.passes.entered.placed index decl body hitem
  have hfunc : (check engine program).analysis.function? decl.name = some func :=
    hname ▸ h.passes.function? (h.passes.functions ▸ hf)
  obtain ⟨index', decl', body', hindex', hitem', hok⟩ := h.programOk.defined func f hf hdefined
  cases hindex.symm.trans hindex'
  obtain ⟨rfl, rfl⟩ := Item.function.inj (Option.some.inj (hitem.symm.trans hitem'))
  exact ⟨f, ⟨func, hfunc, hindex, hf⟩, hok⟩

theorem engineOk (h : Accepted engine program) : engine.Ok := by
  obtain ⟨version, script, hscript⟩ := h.table
  exact EngineTable.ok_of_ofSource hscript

def context (engine : EngineTable) (program : Program) : GenContext :=
  { analysis := (check engine program).analysis, engine
    globals := .ofAnalysis (check engine program).analysis }

theorem contextOk (h : Accepted engine program)
    (hsmall : (check engine program).analysis.structs.Small) : (context engine program).Ok :=
  h.programOk.genContext h.engineOk hsmall

theorem programCode (h : Accepted engine program)
    (hsmall : (check engine program).analysis.structs.Small) {code : Code}
    (hcode : generate engine program (check engine program).analysis = .ok code) :
    ∃ A, code.routines = A.routines ∧ code.entry = A.entry.map Prod.snd ∧
      ProgramCode (context engine program) program A := by
  rcases generate_cases h.programOk h.engineOk hsmall with ⟨code', A, hok, hA⟩ | ⟨bytes, herror⟩
  · obtain rfl := Except.ok.inj (hcode.symm.trans hok)
    exact ⟨A, hA⟩
  · cases hcode.symm.trans herror

/-- **Code is generated for every program without errors**, unless 32 bits overflow. -/
theorem generate_isOk (h : Accepted engine program)
    (hsmall : (check engine program).analysis.structs.Small) (hfits : NoOverflow engine program) :
    ∃ code, generate engine program (check engine program).analysis = .ok code := by
  rcases generate_cases h.programOk h.engineOk hsmall with ⟨code, -, hok, -⟩ | ⟨bytes, herror⟩
  · exact ⟨code, hok⟩
  · exact absurd herror (hfits bytes)

end Accepted

/-! ## A sample -/

namespace Sample

def engine : EngineTable where
  version := "1"
  checksum := 12859845640316331673
  functions := #[⟨0, "Do", .void, [⟨"a", .action, none⟩]⟩]
  byName := [("Do", 0)]

/-- Structures, defaults, a loop, a switch and an action in one script. -/
def text : String :=
  "struct s{int a;vector v;};int g=2;" ++
  "int f(int n,int k=1){switch(n){case 1:return k;default:break;}return n+g;}" ++
  "void main(){struct s x;x.a=f(1);while(x.a<3){int y=x.a;x.a+=1;if(y==2)continue;Do(f(y,2));}}"

def parsed : Parsed := parse engine.typeNames ((lex text 0).filterMap Except.toOption)

def program : Program := parsed.program

set_option maxRecDepth 20000 in
theorem engine_ofSource : EngineTable.ofSource "1" "void Do(action a);" = .ok engine := by cbv

theorem stages : parsed.errors.isEmpty = true ∧ (check engine program).findings.isEmpty = true ∧
    (check engine program).analysis.structs.Small ∧
    (generate engine program (check engine program).analysis).isOk = true ∧
    ((check engine program).analysis.functions[0]?.map fun f => (f.required, f.params.length)) =
      some (1, 2) := by
  decide +kernel

theorem accepted : Accepted engine program where
  table := ⟨_, _, engine_ofSource⟩
  parsed := ⟨_, List.isEmpty_iff.mp stages.1, rfl⟩
  checked := by simp [List.isEmpty_iff.mp stages.2.1]

theorem small : (check engine program).analysis.structs.Small := stages.2.2.1

theorem generated : ∃ code, generate engine program (check engine program).analysis = .ok code := by
  have hok := stages.2.2.2.1
  cases hcode : generate engine program (check engine program).analysis with
  | ok code => exact ⟨code, rfl⟩
  | error fault =>
    rw [hcode] at hok
    cases hok

theorem noOverflow : NoOverflow engine program := by
  intro bytes herror
  obtain ⟨code, hcode⟩ := generated
  cases herror.symm.trans hcode

end Sample

theorem Accepted.generate_isOk_sample : Accepted Sample.engine Sample.program ∧
    ∃ code, generate Sample.engine Sample.program (check Sample.engine Sample.program).analysis =
      .ok code :=
  ⟨Sample.accepted, Accepted.generate_isOk Sample.accepted Sample.small Sample.noOverflow⟩

end Nwscript
