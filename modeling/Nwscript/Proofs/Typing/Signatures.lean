import Nwscript.Proofs.Parser.Defaults
import Nwscript.Proofs.Typing.Decl

/-! # Collected structures and functions

Before the bodies are checked, the structures and the heads of the functions are collected. The
structures are in order, every function has one entry with a proper signature, and the entry of a
defined function leads to the item that defines it. The default of a parameter is the first one that
is declared for it. -/

open List Option

namespace Nwscript
variable {engine : EngineTable} {early : Check.EarlyConsts} {params : List FuncParam} {a : Analysis}
  {program : Program} {definition : Option Nat} {decl : FunctionDecl} {f : FuncInfo} {id : FuncId}

namespace Check

open CheckState

variable {α β : Type}

/-- A check says nothing about nodes and only adds findings, and if none is an error, then `Q` holds
behind it. -/
structure Ends (m : Check α) (s : CheckState) (Q : α → CheckState → Prop) : Prop where
  findings : s.findings <:+ (m s).2.findings
  facts : ∀ id, (m s).2.analysis.facts id = s.analysis.facts id
  inv : s.Inv → (m s).2.Inv
  post : (m s).2.NoErrors → Q (m s).1 (m s).2

namespace Ends

variable {m : Check α} {k : α → Check β} {s : CheckState} {P Q : α → CheckState → Prop}
  {R : β → CheckState → Prop}

theorem noErrors (hm : Ends m s P) (h : (m s).2.NoErrors) : s.NoErrors :=
  fun f hf => h f (hm.findings.subset hf)

theorem bind (hm : Ends m s P) (hk : ∀ a s1, Ends (k a) s1 fun b s2 => P a s1 → R b s2) :
    Ends (m >>= k) s R := by
  have hk := hk (m s).1 (m s).2
  exact ⟨hm.findings.trans hk.findings, fun id => (hk.facts id).trans (hm.facts id),
    fun hi => hk.inv (hm.inv hi), fun he => hk.post he (hm.post (hk.noErrors he))⟩

theorem read {a : α} (h : m s = (a, s)) (hk : Ends (k a) s R) : Ends (m >>= k) s R := by
  have heq : (m >>= k) s = k a s := by
    show k (m s).1 (m s).2 = _
    rw [h]
  exact ⟨heq ▸ hk.findings, heq ▸ hk.facts, heq ▸ hk.inv, heq ▸ hk.post⟩

theorem weaken (hm : Ends m s P) (h : ∀ a s', P a s' → Q a s') : Ends m s Q :=
  { hm with post := fun he => h _ _ (hm.post he) }

theorem ofSound {P : α → CheckState → Analysis → Prop} (h : Sound [] m s P) :
    Ends m s fun a s' => P a s' s'.analysis :=
  ⟨h.writes.findings, fun id => h.writes.facts id not_mem_nil, h.writes.inv,
    fun he => h.sound _ he (.refl _ [])⟩

theorem pure {a : α} (h : Q a s) : Ends (Pure.pure a) s Q :=
  ⟨suffix_refl _, fun _ => rfl, id, fun _ => h⟩

theorem report {Q : Unit → CheckState → Prop} (pos : Pos) {problem : Problem}
    (h : problem.severity = .error) : Ends (Check.report pos problem) s Q :=
  ofSound (.report (P := fun a s' _ => Q a s') pos h)

theorem fail {Q : Option α → CheckState → Prop} (pos : Pos) {problem : Problem}
    (h : problem.severity = .error) : Ends (Check.fail pos problem) s Q :=
  ofSound (.fail (P := fun a s' _ => Q a s') pos h)

theorem record {Q : Unit → CheckState → Prop} {g : Analysis → Analysis}
    (hfacts : ∀ a id, (g a).facts id = a.facts id)
    (hvars : ∀ a, (g a).vars = a.vars ∧ (g a).globals = a.globals)
    (h : Q () { s with analysis := g s.analysis }) : Ends (Check.record g) s Q := by
  refine ⟨suffix_refl _, hfacts s.analysis, fun hi => ?_, fun _ => h⟩
  obtain ⟨hv, hg⟩ := hvars s.analysis
  refine ⟨fun var hvar => ?_, fun p hp => ?_, fun var hvar => ?_⟩
  · exact hv ▸ hi.visible var hvar
  · show p.2 < (g s.analysis).vars.size ∧ p.2 ∈ (g s.analysis).globals
    rw [hv, hg]
    exact hi.globals p hp
  · exact hv ▸ hi.known var (hg ▸ hvar)

end Ends

/-! ## Structures -/

def FieldOk (structs : StructTable) (f : Field) : Prop :=
  f.type.isStorable = true ∧ f.type.HasSlot ∧
    ∀ name, f.type = .struct name → structs.contains name = true

theorem resolveType_spec (engine : EngineTable) (pos : Pos) (spec : TypeSpec) (s : CheckState) :
    (resolveType engine pos spec s).2.analysis = s.analysis ∧
      ∀ type, (resolveType engine pos spec s).1 = some type → type.HasSlot ∧
        ∀ name, type = .struct name → s.analysis.structs.contains name = true := by
  cases spec with
  | struct name =>
    have hrun : resolveType engine pos (.struct name) s =
        (if s.analysis.structs.contains name then pure (some (.struct name))
          else fail pos (.unknownStruct name)) s := rfl
    rw [hrun]
    split
    · next hname =>
      refine ⟨rfl, ?_⟩
      rintro _ ⟨⟩
      refine ⟨trivial, ?_⟩
      rintro _ ⟨⟩
      exact hname
    · exact ⟨rfl, by rintro _ ⟨⟩⟩
  | engine name =>
    rw [resolveType]
    cases h : engine.type? name with
    | none => exact ⟨rfl, by rintro _ ⟨⟩⟩
    | some type =>
      refine ⟨rfl, ?_⟩
      rintro _ ⟨⟩
      refine ⟨hasSlot_of_type? h, ?_⟩
      rintro _ rfl
      simp [EngineTable.type?] at h
  | _ => exact ⟨rfl, by rintro _ ⟨⟩; exact ⟨trivial, by rintro _ ⟨⟩⟩⟩

def FieldsOk (structs : StructTable) (fields : List Field) : Prop :=
  (∀ f ∈ fields, FieldOk structs f) ∧ (fields.map Field.name).Nodup

variable {s : CheckState}

theorem structFields_spec (engine : EngineTable) (decls : List FieldDecl) {fields : List Field}
    (h : FieldsOk s.analysis.structs fields) :
    (structFields engine decls fields s).2.analysis = s.analysis ∧
      FieldsOk s.analysis.structs (structFields engine decls fields s).1 := by
  induction decls generalizing fields s with
  | nil => exact ⟨rfl, h⟩
  | cons decl decls ih =>
    obtain ⟨hsame, hresolved⟩ := resolveType_spec engine decl.pos decl.type s
    simp only [structFields, bind_apply]
    generalize resolveType engine decl.pos decl.type s = r at hsame hresolved ⊢
    obtain ⟨type, s₁⟩ := r
    rw [← hsame] at h hresolved ⊢
    cases type with
    | none => exact ih h
    | some type =>
      dsimp only
      split
      · exact ih h
      · next hstorable =>
        split
        · exact ih h
        · next hnew =>
          refine ih ⟨fun f hf => ?_, ?_⟩
          · rcases mem_append.mp hf with hf | hf
            · exact h.1 f hf
            · obtain rfl := mem_singleton.mp hf
              exact ⟨by simpa using hstorable, hresolved type rfl⟩
          · rw [map_append, map_singleton, nodup_append]
            refine ⟨h.2, nodup_singleton _, fun x hx y hy heq => hnew ?_⟩
            obtain rfl := mem_singleton.mp hy
            obtain ⟨f, hf, rfl⟩ := List.mem_map.mp hx
            exact List.any_eq_true.mpr ⟨f, hf, by simpa using heq⟩

theorem ends_structFields (engine : EngineTable) (decls : List FieldDecl) (fields : List Field)
    (s : CheckState) : Ends (structFields engine decls fields) s fun _ s' => s' = s := by
  induction decls generalizing fields s with
  | nil => exact .pure rfl
  | cons decl decls ih =>
    refine (Ends.ofSound (sound_resolveType engine decl.pos decl.type s)).bind fun r s1 => ?_
    cases r with
    | none => exact (ih fields s1).weaken fun _ _ _ ⟨_, _, h, _⟩ => by cases h
    | some type =>
      have hreport (problem : Problem) (h : problem.severity = .error) {P : CheckState → Prop} :
          Ends (do report decl.pos problem; structFields engine decls fields) s1 fun _ s2 => P s2 :=
        (Ends.report _ h).bind (P := fun _ _ => False) fun _ s2 => (ih fields s2).weaken fun _ _ _ h => h.elim
      dsimp only
      split
      · exact hreport _ rfl
      · split
        · exact hreport _ rfl
        · exact (ih _ s1).weaken fun _ _ h2 h1 => h2.trans h1.1

def AddsStructs (s s' : CheckState) : Prop :=
  ∃ structs, s' = { s with analysis := { s.analysis with structs } } ∧
    (StructsOk s.analysis.structs.defs → StructsOk structs.defs)

theorem AddsStructs.trans {s s' s'' : CheckState} (h : AddsStructs s s') (h' : AddsStructs s' s'') :
    AddsStructs s s'' := by
  obtain ⟨structs, rfl, hok⟩ := h
  obtain ⟨structs', rfl, hok'⟩ := h'
  exact ⟨structs', rfl, fun h => hok' (hok h)⟩

theorem ends_collectStruct (engine : EngineTable) (decl : StructDecl) (s : CheckState) :
    Ends (collectStruct engine decl) s fun _ s' => AddsStructs s s' := by
  refine .read (analysis_apply s) ?_
  split
  · exact .report _ rfl
  · next hnew =>
    have hend := ends_structFields engine decl.fields [] s
    have hfields := (@structFields_spec s engine decl.fields [] ⟨by simp, .nil⟩).2.1
    refine Ends.bind (P := fun fields s1 => s1 = s ∧ ∀ f ∈ fields, FieldOk s.analysis.structs f)
      { hend with post := fun he => ⟨hend.post he, hfields⟩ } fun fields s1 =>
        .record (fun _ _ => rfl) (fun _ => ⟨rfl, rfl⟩) ?_
    rintro ⟨rfl, hfields⟩
    refine ⟨_, rfl, fun hok => ⟨hfields, ?_, rfl, hok⟩⟩
    simpa using hnew

theorem ends_collectTypes (engine : EngineTable) (early : EarlyConsts) (items : Program)
    (s : CheckState) : Ends (collectTypes engine early items) s fun _ s' => AddsStructs s s' := by
  induction items generalizing early s with
  | nil => exact .pure ⟨_, rfl, id⟩
  | cons item items ih =>
    cases item with
    | struct decl =>
      exact (ends_collectStruct engine decl s).bind fun _ s1 => (ih early s1).weaken
        fun _ _ h2 h1 => h1.trans h2
    | global decl => exact ih _ s
    | _ => exact ih early s

def Ordered (t : StructTable) : Prop :=
  StructsOk t.defs ∧ ∀ d ∈ t.defs, (d.fields.map Field.name).Nodup

theorem collectStruct_spec (decl : StructDecl) (h : Ordered s.analysis.structs) :
    Ordered (collectStruct engine decl s).2.analysis.structs := by
  have hrun : collectStruct engine decl s = (if s.analysis.structs.contains decl.name then
      report decl.pos (.structRedefined decl.name)
    else do
      let fields ← structFields engine decl.fields []
      record fun a => { a with structs := a.structs.insert decl.name fields }) s := rfl
  rw [hrun]
  split
  · exact h
  · next hnew =>
    obtain ⟨hsame, hfields, hnames⟩ := @structFields_spec s engine decl.fields [] ⟨by simp, .nil⟩
    show Ordered ((structFields engine decl.fields [] s).2.analysis.structs.insert _ _)
    rw [hsame]
    refine ⟨⟨hfields, by simpa using hnew, rfl, h.1⟩, fun d hd => ?_⟩
    rcases mem_cons.mp hd with rfl | hd
    · exact hnames
    · exact h.2 d hd

theorem collectTypes_spec {early : EarlyConsts} {items : Program} (h : Ordered s.analysis.structs) :
    Ordered (collectTypes engine early items s).2.analysis.structs := by
  induction items generalizing early s with
  | nil => exact h
  | cons item items ih =>
    cases item with
    | struct decl => exact ih (collectStruct_spec decl h)
    | _ => exact ih h

def earlyWith (engine : EngineTable) (early : EarlyConsts) : Item → EarlyConsts
  | .global decl => if decl.isConst then decl.vars.foldl (addEarly engine) early else early
  | _ => early

def earlyConsts (engine : EngineTable) (program : Program) : EarlyConsts :=
  program.foldl (earlyWith engine) []

theorem collectTypes_fst (engine : EngineTable) (early : EarlyConsts) (items : Program)
    (s : CheckState) : (collectTypes engine early items s).1 = items.foldl (earlyWith engine) early := by
  induction items generalizing early s with
  | nil => rfl
  | cons item items ih => cases item <;> exact ih _ _

/-! ## Parameters and results -/

theorem trails_of_forall {bs : List Bool} (h : ∀ b ∈ bs, b = true) : Trails bs := by
  induction bs with
  | nil => exact List.Pairwise.nil
  | cons b bs ih =>
    have htail : ∀ b ∈ bs, b = true := fun x hx => h x (.tail _ hx)
    exact pairwise_cons.mpr ⟨fun x hx _ => htail x hx, ih htail⟩

variable {ps : List Param} {func : FuncId}

theorem isSome_of_missingDefaults (h : Parser.missingDefaults true ps = []) :
    ∀ b ∈ ps.map fun p => p.default.isSome, b = true := by
  induction ps with
  | nil => exact fun b hb => (not_mem_nil hb).elim
  | cons p ps ih =>
    by_cases hp : p.default.isSome = true
    · intro b hb
      rcases mem_cons.mp hb with rfl | hb
      · exact hp
      · exact ih (by simpa [Parser.missingDefaults, hp] using h) b hb
    · simp [Parser.missingDefaults, hp] at h

/-- The defaults of parameters that lack none behind another stand at the end. -/
theorem trails_of_defaultsTrail (h : Parser.DefaultsTrail ps) :
    Trails (ps.map fun p => p.default.isSome) := by
  unfold Parser.DefaultsTrail at h
  induction ps with
  | nil => exact List.Pairwise.nil
  | cons p ps ih =>
    by_cases hp : p.default.isSome = true
    · have hall : ∀ b ∈ ps.map fun p => p.default.isSome, b = true :=
        isSome_of_missingDefaults (by simpa [Parser.missingDefaults, hp] using h)
      exact pairwise_cons.mpr ⟨fun b hb _ => hall b hb, trails_of_forall hall⟩
    · refine pairwise_cons.mpr ⟨fun b _ h => absurd h hp, ih ?_⟩
      simpa [Parser.missingDefaults, hp] using h

theorem trails_or {as bs : List Bool} (ha : Trails as) (hb : Trails bs) :
    Trails (as.zipWith (· || ·) bs) := by
  induction as generalizing bs with
  | nil => exact List.Pairwise.nil
  | cons a as ih =>
    cases bs with
    | nil => exact List.Pairwise.nil
    | cons b bs =>
      obtain ⟨ha, has⟩ := pairwise_cons.mp ha
      obtain ⟨hb, hbs⟩ := pairwise_cons.mp hb
      refine pairwise_cons.mpr ⟨fun c hc h => ?_, ih has hbs⟩
      obtain ⟨i, hi, rfl⟩ := mem_iff_getElem.mp hc
      rw [length_zipWith, Nat.lt_min] at hi
      rw [getElem_zipWith, Bool.or_eq_true]
      rcases Bool.or_eq_true _ _ ▸ h with h | h
      · exact .inl (ha _ (getElem_mem hi.1) h)
      · exact .inr (hb _ (getElem_mem hi.2) h)

theorem ends_defaultValue (engine : EngineTable) (early : EarlyConsts) (p : Param) (type : Ty)
    (s : CheckState) : Ends (defaultValue engine early p type) s fun r s' => s' = s ∧
      r.map .ok = p.default.map (evalEarly engine early) ∧ ∀ v ∈ r, v.type = type := by
  unfold defaultValue
  cases hp : p.default with
  | none => exact .pure ⟨rfl, rfl, by simp⟩
  | some e =>
    dsimp only
    split
    · next value heval =>
      split
      · next htype => exact .pure ⟨rfl, by simp [heval], fun v hv => Option.some.inj hv ▸ htype⟩
      · exact .fail _ rfl
    all_goals exact .fail _ rfl

structure ParamsResolved (engine : EngineTable) (early : EarlyConsts) (a : Analysis) (ps : List Param)
    (params : List FuncParam) : Prop where
  storable : ∀ q ∈ params, a.Storable q.type
  defaults : ∀ q ∈ params, ∀ v ∈ q.default, v.type = q.type
  values : params.map (fun q => q.default.map .ok) =
    ps.map fun p => p.default.map (evalEarly engine early)

section ParamsResolved

variable {engine : EngineTable} {early : EarlyConsts} {a : Analysis} {ps : List Param}
  {params : List FuncParam}

theorem ParamsResolved.length (h : ParamsResolved engine early a ps params) :
    ps.length = params.length := by
  simpa using (congrArg List.length h.values).symm

theorem ParamsResolved.hasDefault (h : ParamsResolved engine early a ps params) :
    params.map (fun q => q.default.isSome) = ps.map fun p => p.default.isSome := by
  have hsome := congrArg (List.map Option.isSome) h.values
  simpa [List.map_map, Function.comp_def] using hsome

theorem ParamsResolved.value (h : ParamsResolved engine early a ps params) {i : Nat} {q : FuncParam}
    (hq : params[i]? = some q) :
    (ps[i]?.bind Param.default).map (evalEarly engine early) = q.default.map .ok := by
  have hi := congrArg (fun l => l[i]?) h.values
  simp only [getElem?_map, hq, map_some] at hi
  cases hp : ps[i]? with
  | none => simp [hp] at hi
  | some p =>
    rw [hp] at hi
    exact (Option.some.inj hi).symm

end ParamsResolved

theorem ends_resolveParams (engine : EngineTable) (early : EarlyConsts) (ps : List Param)
    (s : CheckState) : Ends (resolveParams engine early ps) s fun r s' => s' = s ∧
      ∃ params, r = some params ∧ ParamsResolved engine early s.analysis ps params := by
  induction ps generalizing s with
  | nil => exact .pure ⟨rfl, [], rfl, by simp, by simp, rfl⟩
  | cons p ps ih =>
    refine (Ends.ofSound (sound_resolveType engine p.node.pos p.type s)).bind fun r s1 => ?_
    cases r with
    | none => exact .pure fun ⟨_, _, h, _⟩ => by cases h
    | some type =>
      dsimp only
      split
      · exact .fail _ rfl
      · next hstorable =>
        refine (ends_defaultValue engine early p type s1).bind fun default s2 => ?_
        refine (ih s2).bind fun rest s3 => ?_
        cases rest with
        | none => exact .pure fun ⟨_, _, h, _⟩ => by cases h
        | some params =>
          refine .pure ?_
          rintro ⟨rfl, _, ⟨⟩, hps⟩ ⟨rfl, hvalue, hdefault⟩ ⟨rfl, _, ⟨⟩, hnamed⟩
          refine ⟨rfl, _, rfl, fun q hq => ?_, fun q hq => ?_, ?_⟩
          · rcases mem_cons.mp hq with rfl | hq
            · exact ⟨by simpa using hstorable, hnamed.1, hnamed.2⟩
            · exact hps.storable q hq
          · rcases mem_cons.mp hq with rfl | hq
            · exact hdefault
            · exact hps.defaults q hq
          · rw [map_cons, map_cons, hps.values, hvalue]

theorem ends_resolveResult (engine : EngineTable) (decl : FunctionDecl) (s : CheckState) :
    Ends (resolveResult engine decl) s fun r s' => s' = s ∧
      ∃ type, r = some type ∧ (type = .void ∨ s.analysis.Storable type) := by
  refine (Ends.ofSound (sound_resolveType engine decl.pos decl.ret s)).bind fun r s1 => ?_
  split
  · exact .fail _ rfl
  · next type haction =>
    refine .pure ?_
    rintro ⟨rfl, _, ⟨⟩, hstruct⟩
    refine ⟨rfl, type, rfl, ?_⟩
    by_cases hvoid : type = .void
    · exact .inl hvoid
    · refine .inr ⟨?_, hstruct.1, hstruct.2⟩
      cases type <;> simp_all [Ty.isStorable]
  · exact .pure fun ⟨_, _, h, _⟩ => by cases h

/-! ## The table of functions -/

theorem signatureOk_of_structs {b : Analysis} (h : SignatureOk a f) (hs : b.structs = a.structs) :
    SignatureOk b f := by
  have hstorable : ∀ {type}, a.Storable type → b.Storable type :=
    fun ht => ⟨ht.isStorable, ht.slot, hs ▸ ht.declared⟩
  exact ⟨h.ret.imp id hstorable, fun p hp => hstorable (h.params p hp), h.defaults, h.trailing⟩

def DefinedAt (program : Program) (a : Analysis) (func : FuncId) (f : FuncInfo) : Prop :=
  ∃ index decl body, a.definition? func = some index ∧
    program[index]? = some (.function decl body) ∧ decl.name = f.name ∧
    decl.params.length = f.params.length

structure Collected (program : Program) (a : Analysis) : Prop where
  signatures : ∀ (func : FuncId) f, a.functions[func]? = some f → SignatureOk a f
  names : ∀ (i j : FuncId) f g, a.functions[i]? = some f → a.functions[j]? = some g →
    f.name = g.name → i = j
  defined : ∀ (func : FuncId) f, a.functions[func]? = some f → f.defined = true →
    DefinedAt program a func f

theorem Collected.function? (h : Collected program a) (hf : a.functions[func]? = some f) :
    a.function? f.name = some func := by
  obtain ⟨hlt, heq⟩ := Array.getElem?_eq_some_iff.mp hf
  refine Array.findIdx?_eq_some_iff_getElem.mpr ⟨hlt, by simp [heq], fun j hj hname => ?_⟩
  have hjlt : j < a.functions.size := Nat.lt_trans hj hlt
  have hj' := h.names j func _ f (Array.getElem?_eq_getElem hjlt) hf (by simpa using hname)
  exact Nat.ne_of_lt hj hj'

theorem function?_eq_some {name : String} (h : a.function? name = some func) :
    ∃ f, a.functions[func]? = some f ∧ f.name = name := by
  obtain ⟨hlt, hname, _⟩ := Array.findIdx?_eq_some_iff_getElem.mp h
  exact ⟨_, Array.getElem?_eq_getElem hlt, by simpa using hname⟩

theorem function?_eq_none {name : String} (h : a.function? name = none)
    (hf : a.functions[func]? = some f) : f.name ≠ name := by
  have hmem : f ∈ a.functions := Array.mem_of_getElem? hf
  simpa using Array.findIdx?_eq_none_iff.mp h f hmem

def addDefinition (func : FuncId) (definition : Option Nat) (definitions : List (FuncId × Nat)) :
    List (FuncId × Nat) :=
  (definition.map fun index => (func, index)).toList ++ definitions

theorem lookup_addDefinition_ne {other : FuncId} (h : other ≠ func) (definition : Option Nat)
    (definitions : List (FuncId × Nat)) :
    (addDefinition func definition definitions).lookup other = definitions.lookup other := by
  have hb : (other == func) = false := by simpa using h
  cases definition <;> simp [addDefinition, List.lookup, hb]

structure DeclaredAt (program : Program) (decl : FunctionDecl) (definition : Option Nat) : Prop where
  place : ∀ index, definition = some index → ∃ body, program[index]? = some (.function decl body)
  trails : Parser.DefaultsTrail decl.params

theorem Collected.add {ret : Ty} (h : Collected program a)
    (hdecl : DeclaredAt program decl definition) (hnew : a.function? decl.name = none)
    (hret : ret = .void ∨ a.Storable ret)
    (hparams : ParamsResolved engine early a decl.params params) :
    Collected program
      { a with
        functions := a.functions.push
          { name := decl.name, ret, params, defined := definition.isSome, pos := decl.pos }
        definitions := addDefinition a.functions.size definition a.definitions } := by
  refine ⟨fun func f hf => ?_, fun i j f g hf hg hname => ?_, fun func f hf hdefined => ?_⟩
  · rw [Array.getElem?_push] at hf
    split at hf
    · cases hf
      have htrails := hparams.hasDefault ▸ trails_of_defaultsTrail hdecl.trails
      have hok : SignatureOk a ⟨decl.name, ret, params, definition.isSome, decl.pos⟩ :=
        ⟨hret, hparams.storable, hparams.defaults, htrails⟩
      exact signatureOk_of_structs hok rfl
    · exact signatureOk_of_structs (h.signatures func f hf) rfl
  · rw [Array.getElem?_push] at hf hg
    split at hf
    · next hi =>
      cases hf
      split at hg
      · next hj => rw [hi, hj]
      · exact absurd hname.symm (function?_eq_none hnew hg)
    · split at hg
      · cases hg
        exact absurd hname (function?_eq_none hnew hf)
      · exact h.names i j f g hf hg hname
  · rw [Array.getElem?_push] at hf
    split at hf
    · next hfunc =>
      cases hf
      obtain ⟨index, rfl⟩ := isSome_iff_exists.mp hdefined
      obtain ⟨body, hbody⟩ := hdecl.place index rfl
      refine ⟨index, decl, body, ?_, hbody, rfl, hparams.length⟩
      rw [hfunc]
      exact lookup_cons_self
    · next hfunc =>
      obtain ⟨index, decl', body, hindex, hrest⟩ := h.defined func f hf hdefined
      refine ⟨index, decl', body, ?_, hrest⟩
      rw [← hindex]
      exact lookup_addDefinition_ne hfunc definition a.definitions

theorem trails_mergeDefaults {new : List FuncParam} (hp : Trails (params.map fun p => p.default.isSome))
    (hn : Trails (new.map fun p => p.default.isSome)) :
    Trails ((mergeDefaults params new).map fun p => p.default.isSome) := by
  have heq : (mergeDefaults params new).map (fun p => p.default.isSome) =
      (params.map fun p => p.default.isSome).zipWith (· || ·) (new.map fun p => p.default.isSome) := by
    rw [mergeDefaults, map_zipWith, zipWith_map]
    congr 1
    funext p q
    exact isSome_or
  rw [heq]
  exact trails_or hp hn

theorem mem_mergeDefaults {new : List FuncParam}
    (htypes : params.map FuncParam.type = new.map FuncParam.type) {p : FuncParam}
    (hp : p ∈ mergeDefaults params new) : ∃ q ∈ params, ∃ r ∈ new, q.type = r.type ∧
      p = { q with default := q.default.or r.default } := by
  obtain ⟨i, hi, rfl⟩ := mem_iff_getElem.mp hp
  have hi' : i < params.length ∧ i < new.length := by
    simpa [mergeDefaults, Nat.lt_min] using hi
  refine ⟨_, getElem_mem hi'.1, _, getElem_mem hi'.2, ?_, ?_⟩
  · have h := congrArg (fun l => l[i]?) htypes
    simpa [hi'.1, hi'.2] using h
  · simp [mergeDefaults]

theorem signatureOk_merge (h : SignatureOk a f) (hparams : ParamsResolved engine early a ps params)
    (htrail : Parser.DefaultsTrail ps)
    (htypes : f.params.map FuncParam.type = params.map FuncParam.type) (defined : Bool) :
    SignatureOk a { f with defined, params := mergeDefaults f.params params } := by
  refine ⟨h.ret, fun p hp => ?_, fun p hp v hv => ?_, trails_mergeDefaults h.trailing ?_⟩
  · obtain ⟨q, hq, r, hr, -, rfl⟩ := mem_mergeDefaults htypes hp
    exact h.params q hq
  · obtain ⟨q, hq, r, hr, htype, rfl⟩ := mem_mergeDefaults htypes hp
    rcases or_eq_some_iff.mp hv with hv | ⟨-, hv⟩
    · exact h.defaults q hq v hv
    · exact (hparams.defaults r hr v hv).trans htype.symm
  · exact hparams.hasDefault ▸ trails_of_defaultsTrail htrail

theorem Collected.redeclare (h : Collected program a) (hdecl : DeclaredAt program decl definition)
    (hf : a.functions[id]? = some f) (hname : f.name = decl.name)
    (hparams : ParamsResolved engine early a decl.params params)
    (htypes : f.params.map FuncParam.type = params.map FuncParam.type) :
    Collected program
      { a with
        functions := a.functions.setIfInBounds id
          { f with
            defined := f.defined || definition.isSome
            params := mergeDefaults f.params params }
        definitions := addDefinition id definition a.definitions } := by
  obtain ⟨hlt, _⟩ := Array.getElem?_eq_some_iff.mp hf
  have hget : ∀ (func : FuncId) g, (a.functions.setIfInBounds id
      { f with defined := f.defined || definition.isSome,
               params := mergeDefaults f.params params })[func]? = some g →
      (func = id ∧ g = { f with defined := f.defined || definition.isSome,
                                params := mergeDefaults f.params params }) ∨
      (func ≠ id ∧ a.functions[func]? = some g) := by
    intro func g hg
    rw [Array.getElem?_setIfInBounds] at hg
    split at hg
    · next heq => exact .inl ⟨heq.symm, by simpa [hlt] using hg.symm⟩
    · next hne => exact .inr ⟨fun h => hne h.symm, hg⟩
  refine ⟨fun func g hg => ?_, fun i j g g' hg hg' heq => ?_, fun func g hg hdefined => ?_⟩
  · rcases hget func g hg with ⟨rfl, rfl⟩ | ⟨-, hg⟩
    · have hok := signatureOk_merge (h.signatures _ f hf) hparams hdecl.trails htypes
      exact signatureOk_of_structs (hok _) rfl
    · exact signatureOk_of_structs (h.signatures func g hg) rfl
  · rcases hget i g hg with ⟨rfl, rfl⟩ | ⟨-, hi⟩
    · rcases hget j g' hg' with ⟨rfl, -⟩ | ⟨-, hj⟩
      · rfl
      · exact h.names _ j f g' hf hj heq
    · rcases hget j g' hg' with ⟨rfl, rfl⟩ | ⟨-, hj⟩
      · exact h.names i _ g f hi hf heq
      · exact h.names i j g g' hi hj heq
  · have hlength : (mergeDefaults f.params params).length = f.params.length := by
      have hl := congrArg List.length htypes
      simp only [length_map] at hl
      simp [mergeDefaults, hl]
    rcases hget func g hg with ⟨rfl, rfl⟩ | ⟨hne, hg⟩
    · cases definition with
      | none =>
        obtain ⟨index, decl', body, hindex, hbody, hname', hlen⟩ :=
          h.defined _ f hf (by simpa using hdefined)
        exact ⟨index, decl', body, hindex, hbody, hname', hlen.trans hlength.symm⟩
      | some index =>
        obtain ⟨body, hbody⟩ := hdecl.place index rfl
        refine ⟨index, decl, body, lookup_cons_self, hbody, hname.symm, ?_⟩
        have hl := congrArg List.length htypes
        simp only [length_map] at hl
        rw [hparams.length, hlength, hl]
    · obtain ⟨index, decl', body, hindex, hrest⟩ := h.defined func g hg hdefined
      refine ⟨index, decl', body, ?_, hrest⟩
      rw [← hindex]
      exact lookup_addDefinition_ne hne definition a.definitions

/-! ## Items and entries -/

end Check

def Item.declared : Item → List (Bool × Declarator)
  | .global decl => decl.vars.map fun d => (decl.isConst, d)
  | _ => []

def Item.head? : Item → Option FunctionDecl
  | .prototype decl | .function decl _ => some decl
  | _ => none

def Program.firstDefault (program : Program) (name : String) (i : Nat) : Option Expr :=
  (program.filterMap Item.head?).findSome? fun decl =>
    if decl.name = name then decl.params[i]?.bind Param.default else none

namespace Check

/-- The functions that some items declare have their entries, with the first defaults. -/
structure Entered (engine : EngineTable) (early : EarlyConsts) (items : Program) (a : Analysis) :
    Prop where
  named : ∀ decl ∈ items.filterMap Item.head?, ∃ (func : FuncId) (f : FuncInfo),
    a.functions[func]? = some f ∧ f.name = decl.name
  placed : ∀ (index : Nat) decl body, items[index]? = some (.function decl body) →
    ∃ (func : FuncId) (f : FuncInfo), a.functions[func]? = some f ∧ f.name = decl.name ∧
      f.defined = true ∧ a.definition? func = some index
  defaults : ∀ (func : FuncId) (f : FuncInfo) (i : Nat) p, a.functions[func]? = some f →
    f.params[i]? = some p → (items.firstDefault f.name i).map (evalEarly engine early) = p.default.map .ok

theorem firstDefault_append (items : Program) (item : Item) (name : String) (i : Nat) :
    Program.firstDefault (items ++ [item]) name i = (items.firstDefault name i).or
      (item.head?.bind fun decl => if decl.name = name then decl.params[i]?.bind Param.default else none) := by
  rw [Program.firstDefault, filterMap_append, findSome?_append, filterMap_cons]
  cases item.head? with
  | none => simp [Program.firstDefault]
  | some decl => simp only [Program.firstDefault, filterMap_nil, findSome?_singleton, bind_some]

variable {items done : Program} {item : Item}

theorem Entered.skip (h : Entered engine early items a) (hitem : item.head? = none) :
    Entered engine early (items ++ [item]) a where
  named decl hdecl := h.named decl (by simpa [filterMap_append, hitem] using hdecl)
  placed index decl body hindex := by
    rw [getElem?_append] at hindex
    split at hindex
    · exact h.placed index decl body hindex
    · rw [getElem?_singleton] at hindex
      split at hindex
      · cases hindex
        cases hitem
      · cases hindex
  defaults func f i p hf hp := by
    rw [firstDefault_append, hitem, bind_none, or_none]
    exact h.defaults func f i p hf hp

structure Enters (a a' : Analysis) (decl : FunctionDecl) (definition : Option Nat) (id : FuncId)
    (f : FuncInfo) : Prop where
  entry : a'.functions[id]? = some f
  name : f.name = decl.name
  functions : ∀ func, func ≠ id → a'.functions[func]? = a.functions[func]?
  definitions : ∀ func, func ≠ id → a'.definition? func = a.definition? func
  definition : ∀ index, definition = some index → f.defined = true ∧ a'.definition? id = some index
  old : ∀ g, a.functions[id]? = some g → g.name = decl.name ∧ (g.defined = true →
    f.defined = true ∧ a'.definition? id = a.definition? id)

theorem Entered.step {a' : Analysis} (h : Entered engine early items a)
    (henters : Enters a a' decl definition id f) (hitem : item.head? = some decl)
    (hplace : ∀ body, item = .function decl body → definition = some items.length)
    (hothers : ∀ (func : FuncId) g, func ≠ id → a.functions[func]? = some g → g.name ≠ decl.name)
    (hdefaults : ∀ (i : Nat) p, f.params[i]? = some p → ((items.firstDefault f.name i).or
      (decl.params[i]?.bind Param.default)).map (evalEarly engine early) = p.default.map .ok) :
    Entered engine early (items ++ [item]) a' where
  named other hother := by
    rw [filterMap_append, mem_append] at hother
    rcases hother with hother | hother
    · obtain ⟨func, g, hg, hname⟩ := h.named other hother
      by_cases hfunc : func = id
      · subst hfunc
        exact ⟨_, f, henters.entry, henters.name.trans ((henters.old g hg).1.symm.trans hname)⟩
      · exact ⟨func, g, (henters.functions func hfunc).trans hg, hname⟩
    · obtain rfl : other = decl := by simpa [hitem] using hother
      exact ⟨id, f, henters.entry, henters.name⟩
  placed index other body hindex := by
    rw [getElem?_append] at hindex
    split at hindex
    · obtain ⟨func, g, hg, hname, hdefined, hdefinition⟩ := h.placed index other body hindex
      by_cases hfunc : func = id
      · subst hfunc
        obtain ⟨hold, hkept⟩ := henters.old g hg
        exact ⟨_, f, henters.entry, henters.name.trans (hold.symm.trans hname), (hkept hdefined).1,
          (hkept hdefined).2.trans hdefinition⟩
      · exact ⟨func, g, (henters.functions func hfunc).trans hg, hname, hdefined,
          (henters.definitions func hfunc).trans hdefinition⟩
    · next hlast =>
      rw [getElem?_singleton] at hindex
      split at hindex
      · next hzero =>
        cases hindex
        cases hitem
        obtain rfl : index = items.length := by omega
        obtain ⟨hdefined, hdefinition⟩ := henters.definition _ (hplace body rfl)
        exact ⟨id, f, henters.entry, henters.name, hdefined, hdefinition⟩
      · cases hindex
  defaults func g i p hg hp := by
    rw [firstDefault_append, hitem, bind_some]
    by_cases hfunc : func = id
    · subst hfunc
      cases henters.entry.symm.trans hg
      rw [if_pos henters.name.symm]
      exact hdefaults i p hp
    · have hg := (henters.functions func hfunc).symm.trans hg
      rw [if_neg (hothers func g hfunc hg).symm, or_none]
      exact h.defaults func g i p hg hp

def TableOk (engine : EngineTable) (early : EarlyConsts) (program items : Program) (a : Analysis) :
    Prop :=
  Collected program a ∧ Entered engine early items a

def AddsFunctions (engine : EngineTable) (early : EarlyConsts) (program done items : Program)
    (s s' : CheckState) : Prop :=
  ∃ functions definitions,
    s' = { s with analysis := { s.analysis with functions, definitions } } ∧
    (TableOk engine early program done s.analysis →
      TableOk engine early program (done ++ items) s'.analysis)

theorem AddsFunctions.trans {items' : Program} {s s' s'' : CheckState}
    (h : AddsFunctions engine early program done items s s')
    (h' : AddsFunctions engine early program (done ++ items) items' s' s'') :
    AddsFunctions engine early program done (items ++ items') s s'' := by
  obtain ⟨_, _, rfl, hok⟩ := h
  obtain ⟨functions, definitions, rfl, hok'⟩ := h'
  exact ⟨functions, definitions, rfl, fun h => append_assoc done items items' ▸ hok' (hok h)⟩

/-- A function that was not declared before gets its own defaults. -/
theorem TableOk.add {ret : Ty} (h : TableOk engine early program items a)
    (hdecl : DeclaredAt program decl definition) (hitem : item.head? = some decl)
    (hplace : ∀ body, item = .function decl body → definition = some items.length)
    (hnew : a.function? decl.name = none) (hret : ret = .void ∨ a.Storable ret)
    (hparams : ParamsResolved engine early a decl.params params) :
    TableOk engine early program (items ++ [item])
      { a with
        functions := a.functions.push
          { name := decl.name, ret, params, defined := definition.isSome, pos := decl.pos }
        definitions := addDefinition a.functions.size definition a.definitions } := by
  have hnone : ∀ i, items.firstDefault decl.name i = none := by
    refine fun i => findSome?_eq_none_iff.mpr fun other hother => if_neg fun hname => ?_
    obtain ⟨func, f, hf, hf'⟩ := h.2.named other hother
    exact function?_eq_none hnew hf (hf'.trans hname)
  refine ⟨h.1.add hdecl hnew hret hparams, h.2.step ⟨Array.getElem?_push_size, rfl, fun func hfunc => ?_,
    fun func hfunc => lookup_addDefinition_ne hfunc _ _, fun index hindex => ?_, fun g hg => ?_⟩ hitem hplace
    (fun func g _ hg => function?_eq_none hnew hg) fun i p hp => ?_⟩
  · exact Array.getElem?_push.trans (if_neg hfunc)
  · rw [hindex]
    exact ⟨rfl, lookup_cons_self⟩
  · simp at hg
  · rw [hnone i, none_or]
    exact hparams.value hp

/-- A function that is declared again keeps its defaults and gets new ones where it has none. -/
theorem TableOk.redeclare (h : TableOk engine early program items a)
    (hdecl : DeclaredAt program decl definition) (hitem : item.head? = some decl)
    (hplace : ∀ body, item = .function decl body → definition = some items.length)
    (hf : a.functions[id]? = some f) (hname : f.name = decl.name)
    (hdefined : ¬ (definition.isSome && f.defined) = true)
    (hparams : ParamsResolved engine early a decl.params params)
    (htypes : f.params.map FuncParam.type = params.map FuncParam.type) :
    TableOk engine early program (items ++ [item])
      { a with
        functions := a.functions.setIfInBounds id
          { f with
            defined := f.defined || definition.isSome
            params := mergeDefaults f.params params }
        definitions := addDefinition id definition a.definitions } := by
  obtain ⟨hlt, _⟩ := Array.getElem?_eq_some_iff.mp hf
  refine ⟨h.1.redeclare hdecl hf hname hparams htypes, h.2.step
    ⟨Array.getElem?_setIfInBounds_self_of_lt hlt, hname, fun func hfunc => ?_,
      fun func hfunc => lookup_addDefinition_ne hfunc _ _, fun index hindex => ?_, fun g hg => ?_⟩
    hitem hplace
    (fun func g hfunc hg hsame => hfunc (h.1.names func id g f hg hf (hsame.trans hname.symm)))
    fun i p hp => ?_⟩
  · rw [Array.getElem?_setIfInBounds, if_neg fun h => hfunc h.symm]
  · rw [hindex]
    exact ⟨Bool.or_true _, lookup_cons_self⟩
  · cases hf.symm.trans hg
    refine ⟨hname, fun hdef => ⟨by simp [hdef], ?_⟩⟩
    cases definition with
    | none => rfl
    | some index => simp [hdef] at hdefined
  · obtain ⟨q, r, hq, hr, rfl⟩ := getElem?_zipWith_eq_some.mp hp
    rw [map_or, h.2.defaults id f i q hf hq, hparams.value hr, map_or]

theorem ends_declareFunction (hdecl : DeclaredAt program decl definition)
    (hitem : item.head? = some decl)
    (hplace : ∀ body, item = .function decl body → definition = some done.length) (s : CheckState) :
    Ends (declareFunction engine early decl definition) s fun _ s' =>
      AddsFunctions engine early program done [item] s s' := by
  unfold declareFunction
  split
  · exact .report _ rfl
  · refine (ends_resolveResult engine decl s).bind fun ret s1 => ?_
    cases ret with
    | none => exact .pure fun ⟨_, _, h, _⟩ => by cases h
    | some ret =>
      refine (ends_resolveParams engine early decl.params s1).bind fun params s2 => ?_
      cases params with
      | none => exact .pure fun ⟨_, _, h, _⟩ => by cases h
      | some params =>
        refine .read (analysis_apply s2) ?_
        dsimp only
        split
        · next hnew =>
          refine .record (fun _ _ => rfl) (fun _ => ⟨rfl, rfl⟩) ?_
          rintro ⟨rfl, _, ⟨⟩, hparams⟩ ⟨rfl, _, ⟨⟩, hret⟩
          exact ⟨_, _, rfl, fun h => h.add hdecl hitem hplace hnew hret hparams⟩
        · next id hid =>
          obtain ⟨f, hf, hname⟩ := function?_eq_some hid
          rw [hf]
          dsimp only
          unfold redeclareFunction
          split
          · exact .report _ rfl
          · next hsame =>
            split
            · exact .report _ rfl
            · next hdefined =>
              refine .record (fun _ _ => rfl) (fun _ => ⟨rfl, rfl⟩) ?_
              rintro ⟨rfl, _, ⟨⟩, hparams⟩ ⟨rfl, -⟩
              have htypes : f.params.map FuncParam.type = params.map FuncParam.type := by
                simp only [sameSignature, Bool.not_eq_true', Bool.not_eq_false, Bool.and_eq_true,
                  beq_iff_eq] at hsame
                exact hsame.2
              exact ⟨_, _, rfl, fun h => h.redeclare hdecl hitem hplace hf hname hdefined hparams htypes⟩

theorem ends_collectFunctions (htrails : ∀ item ∈ program, Parser.ItemTrails item)
    (hitems : program = done ++ items) (s : CheckState) :
    Ends (collectFunctions engine early done.length items) s fun _ s' =>
      AddsFunctions engine early program done items s s' := by
  induction items generalizing done s with
  | nil => exact .pure ⟨_, _, rfl, fun h => (append_nil done).symm ▸ h⟩
  | cons item items ih =>
    have hplace : program[done.length]? = some item := by simp [hitems]
    have hmem : item ∈ program := mem_of_getElem? hplace
    have hrest (s1 : CheckState) : Ends (collectFunctions engine early (done.length + 1) items) s1
        fun _ s' => AddsFunctions engine early program (done ++ [item]) items s1 s' := by
      have h := ih (show program = (done ++ [item]) ++ items by simp [hitems]) s1
      rwa [length_append] at h
    cases item with
    | prototype decl =>
      have hdecl : DeclaredAt program decl none :=
        ⟨fun _ h => (by cases h), htrails _ hmem⟩
      exact (ends_declareFunction hdecl rfl (fun _ h => by cases h) s).bind fun _ s1 =>
        (hrest s1).weaken fun _ _ h2 h1 => h1.trans h2
    | function decl body =>
      have hdecl : DeclaredAt program decl (some done.length) :=
        ⟨fun _ h => ⟨body, Option.some.inj h ▸ hplace⟩, htrails _ hmem⟩
      exact (ends_declareFunction hdecl rfl (fun _ _ => rfl) s).bind fun _ s1 =>
        (hrest s1).weaken fun _ _ h2 h1 => h1.trans h2
    | _ =>
      refine (hrest s).weaken fun _ s' h => ?_
      exact AddsFunctions.trans ⟨_, _, rfl, fun h => ⟨h.1, h.2.skip rfl⟩⟩ h

end Check
end Nwscript
