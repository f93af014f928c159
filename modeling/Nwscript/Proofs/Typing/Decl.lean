import Nwscript.Proofs.Typing.Expr

/-! # Checked declarations

A declarator introduces a variable that did not exist before, records it, and makes its name known.
The variables of a check without errors are in order: constants have a value of their type. -/

open List Option

namespace Nwscript

variable {s s' : CheckState}

namespace CheckState

theorem VarsOk.push {info : VarInfo} (h : s.VarsOk) (hinfo : VarOk info)
    (hv : s'.analysis.vars = s.analysis.vars.push info) (hstuck : s'.stuck = false) : s'.VarsOk := by
  refine ⟨fun var other hvar => ?_, hstuck⟩
  rw [hv, Array.getElem?_push] at hvar
  split at hvar
  · rwa [← Option.some.inj hvar]
  · exact h.1 var other hvar

def warnings (warned : List Pos) : List Finding :=
  (warned.map fun pos => ⟨.unreachable, pos⟩).reverse

/-- A step that declares local variables at most, and warns of unreachable statements. -/
structure Introduces (warned : List Pos) (s s' : CheckState) : Prop where
  names : s'.globals = s.globals
  globals : s'.analysis.globals = s.analysis.globals
  varsOk : s.VarsOk → s'.VarsOk
  findings : s'.findings = warnings warned ++ s.findings

namespace Introduces

variable {s s' s'' : CheckState} {warned warned' : List Pos}

theorem refl (s : CheckState) : Introduces [] s s := ⟨rfl, rfl, id, rfl⟩

theorem trans (h : Introduces warned s s') (h' : Introduces warned' s' s'') :
    Introduces (warned ++ warned') s s'' where
  names := h'.names.trans h.names
  globals := h'.globals.trans h.globals
  varsOk hs := h'.varsOk (h.varsOk hs)
  findings := by simp [h'.findings, h.findings, warnings]

end Introduces

theorem Stays.introduces (h : Stays s s') : Introduces [] s s' :=
  ⟨h.names, h.globals, h.varsOk, h.findings⟩

end CheckState

namespace Check

open CheckState

/-! ## Steps of a declaration -/

variable {var : VarId} {engine : EngineTable} {type : Option Ty} {isConst : Bool}
  {ds : List Declarator}

theorem getElem?_push_of_some {vars : Array VarInfo} {info other : VarInfo}
    (h : vars[var]? = some other) : (vars.push info)[var]? = some other := by
  obtain ⟨hlt, rfl⟩ := Array.getElem?_eq_some_iff.mp h
  rw [Array.getElem?_push_lt hlt]

theorem newVar_apply (info : VarInfo) (s : CheckState) : newVar info s = (s.analysis.vars.size,
    { s with analysis := { s.analysis with vars := s.analysis.vars.push info } }) := rfl

theorem sound_newVar (info : VarInfo) (s : CheckState) :
    Sound [] (newVar info) s fun var s' final => var = s.analysis.vars.size ∧
      final.vars[var]? = some info ∧
      s' = { s with analysis := { s.analysis with vars := s.analysis.vars.push info } } := by
  refine ⟨⟨fun _ _ => rfl, fun _ _ => getElem?_push_of_some, fun _ h => h, rfl, rfl, rfl, rfl,
    suffix_refl _, rfl, id, fun hi => ?_⟩, fun final _ hs => ⟨rfl, hs.vars _ info ?_, rfl⟩⟩
  · have hsize : s.analysis.vars.size < (s.analysis.vars.push info).size := by simp
    exact ⟨fun var hvar => Nat.lt_trans (hi.visible var hvar) hsize,
      fun p hp => ⟨Nat.lt_trans (hi.globals p hp).1 hsize, (hi.globals p hp).2⟩,
      fun var hvar => Nat.lt_trans (hi.known var hvar) hsize⟩
  · exact Array.getElem?_push_size

theorem sound_recordDecl (node : NodeId) (var : VarId) (s : CheckState) :
    Sound [node] (recordDecl node var) s fun _ s' final => final.decls.get? node = some var ∧
      Stays s s' := by
  have h : Own node (recordDecl node var) s fun _ f => f.decl = some var := by
    refine .record (fun a other h => ?_) (fun _ => ⟨rfl, rfl, rfl, rfl, rfl, rfl⟩) ?_
    · simp [Analysis.facts, NodeTable.get?_insert_ne _ _ h]
    · simp [Analysis.facts]
  exact h.sound.weaken fun _ _ _ _ _ _ h => ⟨h.2, h.1⟩

theorem visible_declare {s : ScopeStack} (hopen : s.scopes ≠ []) {name : String}
    (hnew : s.inner? name = none) (var : VarId) : ∃ scope outer, s.scopes = scope :: outer ∧
      (s.declare name var).scopes = ((name, var) :: scope) :: outer := by
  obtain ⟨scopes⟩ := s
  cases scopes with
  | nil => exact absurd rfl hopen
  | cons scope outer =>
    have hnone : scope.lookup name = none := hnew
    exact ⟨scope, outer, rfl, by simp [ScopeStack.declare, hnone]⟩

def DeclaredLocal (var : VarId) (s s' : CheckState) : Prop :=
  (∃ scopes, s' = { s with scopes }) ∧ (s.scopes.scopes ≠ [] → s'.visible = var :: s.visible)

theorem sound_declareLocal (hvar : var < s.analysis.vars.size) (name : String) (pos : Pos)
    {problem : Problem} (hp : problem.severity = .error) :
    Sound [] (declareLocal name var pos problem) s fun _ s' _ => DeclaredLocal var s s' := by
  refine .read (m := get) rfl ?_
  split
  · exact .report pos hp
  · next hnew =>
    by_cases hopen : s.scopes.scopes = []
    · have hsame : s.scopes.declare name var = s.scopes := by simp [ScopeStack.declare, hopen]
      have heq : ({ s with scopes := s.scopes.declare name var } : CheckState) = s := by rw [hsame]
      rw [heq]
      exact ⟨Writes.refl _ _, fun _ _ _ => ⟨⟨_, rfl⟩, fun h => absurd hopen h⟩⟩
    · obtain ⟨scope, outer, hscopes, hdeclare⟩ := visible_declare hopen hnew var
      have hvisible : ({ s with scopes := s.scopes.declare name var } : CheckState).visible =
          var :: s.visible := by
        simp [visible, hdeclare, hscopes]
      refine ⟨⟨fun _ _ => rfl, fun _ _ h => h, fun _ h => h, rfl, rfl, rfl, rfl, suffix_refl _,
        ?_, fun _ => ?_, fun hi => ⟨fun v hv => ?_, hi.globals, hi.known⟩⟩,
        fun _ _ _ => ⟨⟨_, rfl⟩, fun _ => hvisible⟩⟩
      · show (s.scopes.declare name var).scopes.tail = s.scopes.scopes.tail
        rw [hdeclare, hscopes]
        rfl
      · show (s.scopes.declare name var).scopes ≠ []
        rw [hdeclare]
        exact cons_ne_nil _ _
      · have hv : v ∈ var :: s.visible := hvisible ▸ hv
        rcases mem_cons.mp hv with rfl | hv
        · exact hvar
        · exact hi.visible v hv

def DeclaredGlobal (name : String) (var : VarId) (s s' : CheckState) : Prop :=
  s.globals.lookup name = none ∧ s' = { s with
    globals := (name, var) :: s.globals
    analysis := { s.analysis with globals := s.analysis.globals ++ [var] } }

theorem sound_declareGlobal (hvar : var < s.analysis.vars.size) (name : String) (pos : Pos) :
    Sound [] (declareGlobal name var pos) s fun _ s' _ => DeclaredGlobal name var s s' := by
  refine .read (m := get) rfl ?_
  split
  · exact .report pos rfl
  · next hnew =>
    refine ⟨⟨fun _ _ => rfl, fun _ _ h => h, ?_, rfl, rfl, rfl, rfl, suffix_refl _, rfl, id,
      fun hi => ⟨hi.visible, fun p hp => ?_, fun v hv => ?_⟩⟩, fun _ _ _ => ⟨hnew, rfl⟩⟩
    · exact subset_append_left _ _
    · rcases mem_cons.mp hp with rfl | hp
      · exact ⟨hvar, mem_append_right _ (mem_singleton_self _)⟩
      · exact ⟨(hi.globals p hp).1, mem_append_left _ (hi.globals p hp).2⟩
    · rcases mem_append.mp hv with hv | hv
      · exact hi.known v hv
      · rwa [mem_singleton.mp hv]

/-! ## Types and initializers -/

theorem hasSlot_of_type? {name : String} {type : Ty} (h : engine.type? name = some type) :
    type.HasSlot := by
  obtain ⟨slot, hslot, rfl⟩ := map_eq_some_iff.mp h
  obtain ⟨i, -, rfl⟩ := map_eq_some_iff.mp hslot
  have hi := i.isLt
  show i.val.toUInt8.toNat < engineTypeSlots
  rw [Nat.toUInt8, UInt8.toNat_ofNat']
  exact Nat.lt_of_le_of_lt (Nat.mod_le _ _) hi

theorem sound_resolveType (engine : EngineTable) (pos : Pos) (spec : TypeSpec) (s : CheckState) :
    Sound [] (resolveType engine pos spec) s fun r s' final => s' = s ∧ ∃ type, r = some type ∧
      type.HasSlot ∧ ∀ name, type = .struct name → final.structs.contains name = true := by
  cases spec with
  | struct name =>
    refine .read (analysis_apply s) ?_
    split
    · next h =>
      refine .pure fun final _ hs => ⟨rfl, _, rfl, trivial, ?_⟩
      rintro _ ⟨⟩
      rwa [hs.structs]
    · exact .fail pos rfl
  | engine name =>
    rw [resolveType]
    split
    · next type h =>
      refine .pure fun _ _ _ => ⟨rfl, _, rfl, hasSlot_of_type? h, ?_⟩
      rintro _ rfl
      simp [EngineTable.type?] at h
    · exact .fail pos rfl
  | _ => exact .pure fun _ _ _ => ⟨rfl, _, rfl, trivial, fun _ h => by cases h⟩

theorem sound_variableType (engine : EngineTable) (decl : VarDecl) (s : CheckState) :
    Sound [] (variableType engine decl) s fun r s' final => s' = s ∧
      ∃ type, r = some type ∧ final.Storable type := by
  refine (sound_resolveType engine decl.pos decl.type s).bindLast fun r s1 _ _ => ?_
  cases r with
  | none => exact .pure fun _ _ _ _ ⟨_, _, h, _⟩ => by cases h
  | some type =>
    dsimp only
    split
    · next hstorable =>
      refine .pure fun final _ _ _ ⟨hsame, _, htype, hslot, hstruct⟩ _ =>
        ⟨hsame, type, rfl, hstorable, ?_, ?_⟩
      · exact Option.some.inj htype ▸ hslot
      · exact Option.some.inj htype ▸ hstruct
    · exact .fail _ rfl

/-- What the check of an initializer finds out; `r` is the value of a constant. -/
structure InitChecked (engine : EngineTable) (s : CheckState) (isConst : Bool) (d : Declarator)
    (type : Ty) (r : Option Value) (final : Analysis) : Prop where
  init : ∀ e, d.init = some e → UsableAs engine final s.visible type e ∧ ExprRead s final e
  known : r = if isConst then d.init.bind final.valueOf else none
  value : s.VarsOk → isConst = r.isSome ∧ ∀ v ∈ r, v.type = type

theorem sound_initialValue (isConst : Bool) (name : String) (init : Expr) (actual : Ty)
    (s : CheckState) : Sound [] (initialValue isConst name init (some actual)) s fun r s' _ =>
      s' = s ∧ isConst = r.isSome ∧ r = if isConst then s.analysis.valueOf init else none := by
  unfold initialValue
  split
  · next hconst =>
    refine .read (constOf_apply _ s) ?_
    cases hv : s.analysis.valueOf init with
    | some v => exact .pure fun _ _ _ => ⟨rfl, hconst, rfl⟩
    | none => exact .afterReport _ rfl fun s' => .refl _ s'
  · next hconst => exact .pure fun _ _ _ => ⟨rfl, by simpa using hconst, rfl⟩

theorem writes_initialValue (isConst : Bool) (name : String) (init : Expr) (s : CheckState) :
    Writes [] s (initialValue isConst name init none s).2 := by
  have heq : (initialValue isConst name init none s).2 = s := by
    unfold initialValue
    cases isConst with
    | false => rfl
    | true => cases hv : s.analysis.valueOf init <;> simp [hv]
  rw [heq]
  exact Writes.refl _ s

theorem sound_checkInitializer {d : Declarator} (hinv : s.Inv)
    (hfresh : s.Fresh (d.init.toList.flatMap Expr.ids))
    (hnodup : (d.init.toList.flatMap Expr.ids).Nodup) :
    Sound (d.init.toList.flatMap Expr.ids) (checkInitializer engine isConst type d) s
      fun r s' final => Stays s s' ∧ ∀ ty, type = some ty →
        InitChecked engine s isConst d ty r final := by
  unfold checkInitializer
  cases hinit : d.init with
  | none =>
    dsimp only
    split
    · exact .afterReport _ rfl fun s' => .refl _ s'
    · next hconst =>
      refine .pure fun final _ _ => ⟨.refl s, fun ty _ => ⟨?_, ?_, fun _ => ⟨?_, ?_⟩⟩⟩
      · simp [hinit]
      · simp [hconst]
      · simpa using hconst
      · simp
  | some init =>
    rw [hinit] at hfresh hnodup
    simp only [toList_some, flatMap_cons, flatMap_nil, append_nil]
      at hfresh hnodup ⊢
    refine (checksExpr_read engine init s hinv hfresh hnodup).now.bindLast fun r s1 _ _ => ?_
    cases r with
    | none =>
      have hw := writes_initialValue isConst d.name init s1
      have hnone : ∀ final, ¬ ExprChecked engine s init none s1 final := fun _ ⟨_, _, h, _⟩ => by cases h
      cases type <;> exact ⟨hw, fun final _ _ _ h => absurd h.1.1 (hnone final)⟩
    | some actual =>
      -- The value of the initializer in the tables of this moment has its type.
      have hvalue : ∀ {v}, ExprChecked engine s init (some actual) s1 s1.analysis → s.VarsOk →
          s1.analysis.valueOf init = some v → v.type = actual := by
        rintro v ⟨hstays, _, ⟨⟩, hok⟩ hvars hv
        exact hasTypedValue hok.ok (hstays.varsOk hvars).1 v actual hv hok.typeOf
      have htail := sound_initialValue isConst d.name init actual s1
      cases type with
      | none => exact htail.weaken fun _ _ _ _ _ _ ⟨hs, _⟩ _ h _ => ⟨hs ▸ h.1.1.1, fun _ h => by cases h⟩
      | some ty =>
        dsimp only
        split
        · exact .afterReport _ rfl fun s2 => (sound_initialValue isConst d.name init actual s2).writes
        · next hty =>
          obtain rfl : ty = actual := Decidable.not_not.mp hty
          refine htail.weaken ?_
          rintro r _ final - - - ⟨rfl, hconst, hr⟩ - ⟨⟨⟨hstays, _, ⟨⟩, hok⟩, hread⟩, hnow, -⟩ hs
          refine ⟨hstays, ?_⟩
          rintro _ ⟨⟩
          refine ⟨fun e he => ?_, ?_, fun hvars => ⟨hconst, fun v hv => hvalue hnow hvars ?_⟩⟩
          · cases hinit.symm.trans he
            exact ⟨hok, hread⟩
          · rw [hr, hinit, bind_some, Analysis.valueOf, Analysis.valueOf, hs.consts init.id_mem_ids]
          · rw [hr] at hv
            split at hv
            · exact hv
            · cases hv

/-! ## Declarators -/

/-- What the check of a declarator finds out, apart from where its name is known then. -/
structure DeclaratorChecked (engine : EngineTable) (kind : VarKind) (s : CheckState) (isConst : Bool)
    (d : Declarator) (var : VarId) (info : VarInfo) (final : Analysis) : Prop where
  declares : DeclaresVar engine final kind s.visible d var info
  known : info.value = if isConst then d.init.bind final.valueOf else none
  isConst : info.isConst = isConst
  isNew : var = s.analysis.vars.size
  varOk : s.VarsOk → VarOk info
  read : ∀ e, d.init = some e → ExprRead s final e

structure Declaring (info : VarInfo) (s s1 : CheckState) : Prop where
  scopes : s1.scopes = s.scopes
  names : s1.globals = s.globals
  globals : s1.analysis.globals = s.analysis.globals
  vars : s1.analysis.vars = s.analysis.vars.push info
  stuck : s.VarsOk → s1.stuck = false
  findings : s1.findings = s.findings

/-- The check of a declarator, given what it means that its name is declared: `D` relates the
variable, the state before and the state behind. -/
theorem sound_checkDeclarator (kind : VarKind) (d : Declarator)
    {D : VarId → CheckState → CheckState → Prop}
    (hdeclare : ∀ var (s : CheckState), var < s.analysis.vars.size →
      Sound [] (declare kind d.name var d.node.pos) s fun _ s' _ => D var s s') (hinv : s.Inv)
    (hfresh : s.Fresh d.ids) (hnodup : d.ids.Nodup) :
    Sound d.ids (checkDeclarator engine kind isConst type d) s fun _ s' final =>
      ∀ ty, type = some ty → final.Storable ty → ∃ var info s1,
        DeclaratorChecked engine kind s isConst d var info final ∧ D var s1 s' ∧
        Declaring info s s1 := by
  obtain ⟨hnode, hnodup⟩ := nodup_cons.mp hnodup
  have hdisjoint : (d.init.toList.flatMap Expr.ids).Disjoint [d.node.id] := by
    intro id hid hmem
    exact hnode (mem_singleton.mp hmem ▸ hid)
  have hinit : Sound _ (checkInitializer engine isConst type d) s _ := sound_checkInitializer hinv
    (fun id hid => hfresh id (.tail _ hid)) hnodup
  refine (?_ : Sound (d.init.toList.flatMap Expr.ids ++ [d.node.id]) _ _ _).perm
    (perm_append_singleton _ _)
  refine hinit.bind hdisjoint fun value s1 _ _ => ?_
  refine (sound_newVar _ s1).bind (disjoint_nil_left _) fun var s2 hvar _ => ?_
  obtain ⟨rfl, rfl⟩ := Prod.mk.inj ((newVar_apply _ s1).symm.trans hvar)
  refine (sound_recordDecl d.node.id _ _).bindLast fun _ s3 hs3 _ => ?_
  obtain ⟨-, rfl⟩ := Prod.mk.inj hs3.symm
  refine (hdeclare _ _ (by simp [Array.size_push])).weaken ?_
  rintro - s4 final - - - hD - ⟨hdecl, hstays3⟩ - - ⟨-, hknown, -⟩ - - ⟨hstays1, hchecked⟩ - ty rfl hst
  obtain ⟨hinits, hconstant, hvalue⟩ := hchecked ty rfl
  refine ⟨_, _, _, ⟨⟨hdecl, fun hmem => ?_, hknown, hst, fun e he => (hinits e he).1, rfl⟩, hconstant,
    rfl, ?_, ?_, fun e he => (hinits e he).2⟩, hD, hstays1.scopes, hstays1.names, hstays1.globals, ?_,
    fun hvars => (hstays1.varsOk hvars).2, hstays1.findings⟩
  · have hlt := hinv.visible _ hmem
    rw [hstays1.vars] at hlt
    exact Nat.lt_irrefl _ hlt
  · rw [hstays1.vars]
  · intro hvars
    obtain ⟨hconst, htype⟩ := hvalue hvars
    exact ⟨hconst, htype⟩
  · rw [← hstays1.vars]

/-! ## Declarations -/

theorem declarators_split {d : Declarator} (hfresh : s.Fresh ((d :: ds).flatMap Declarator.ids))
    (hnodup : ((d :: ds).flatMap Declarator.ids).Nodup) :
    s.Fresh d.ids ∧ s.Fresh (ds.flatMap Declarator.ids) ∧ d.ids.Nodup ∧
      (ds.flatMap Declarator.ids).Nodup ∧ d.ids.Disjoint (ds.flatMap Declarator.ids) := by
  rw [flatMap_cons] at hfresh hnodup
  obtain ⟨hnodup1, hnodup2, hdisjoint⟩ := nodup_append'.mp hnodup
  exact ⟨fun id hid => hfresh id (mem_append_left _ hid),
    fun id hid => hfresh id (mem_append_right _ hid), hnodup1, hnodup2, hdisjoint⟩

structure LocalsChecked (engine : EngineTable) (s : CheckState) (ds : List Declarator)
    (s' : CheckState) (final : Analysis) : Prop where
  ok : DeclaratorsOk engine final s.visible ds
  visible : s'.visible = openedBy final s.visible ds
  introduces : Introduces [] s s'

theorem sound_localDeclarators (hinv : s.Inv) (hopen : s.scopes.scopes ≠ [])
    (hfresh : s.Fresh (ds.flatMap Declarator.ids)) (hnodup : (ds.flatMap Declarator.ids).Nodup) :
    Sound (ds.flatMap Declarator.ids) (ds.forM (checkDeclarator engine .local isConst type)) s
      fun _ s' final => ∀ ty, type = some ty → final.Storable ty →
        LocalsChecked engine s ds s' final := by
  induction ds generalizing s with
  | nil => exact .pure fun _ _ _ _ _ _ => ⟨trivial, rfl, .refl s⟩
  | cons d ds ih =>
    obtain ⟨hfresh1, hfresh2, hnodup1, hnodup2, hdisjoint⟩ := declarators_split hfresh hnodup
    have hfirst : Sound d.ids (checkDeclarator engine .local isConst type d) s _ :=
      sound_checkDeclarator .local d (D := DeclaredLocal)
        (fun _ _ hvar => sound_declareLocal hvar d.name d.node.pos rfl) hinv hfresh1 hnodup1
    rw [flatMap_cons]
    refine hfirst.bind hdisjoint fun _ s1 _ hw => ?_
    refine (ih (hw.inv hinv) (hw.isOpen hopen) (hw.fresh hfresh2 hdisjoint) hnodup2).weaken ?_
    rintro - s2 final - - - hrest - hd - ty rfl hst
    obtain ⟨var, info, s0, hdecl, ⟨⟨scopes, rfl⟩, hvisible⟩, hs0⟩ := hd ty rfl hst
    obtain ⟨hok, hbehind, hintro⟩ := hrest ty rfl hst
    have hvisible : visible { s0 with scopes } = var :: s.visible := by
      rw [hvisible (hs0.scopes ▸ hopen), visible, hs0.scopes]
      rfl
    rw [hvisible] at hok hbehind
    have hintro0 : Introduces [] s { s0 with scopes } :=
      ⟨hs0.names, hs0.globals, fun h => h.push (hdecl.varOk h) hs0.vars (hs0.stuck h), hs0.findings⟩
    refine ⟨⟨var, info, hdecl.declares, hok⟩, ?_, hintro0.trans hintro⟩
    rw [hbehind, openedBy, hdecl.declares.decl]
    rfl

/-- A declarator makes its name known as that of a new variable, whose value is that of its
initializer if it is a constant. -/
structure DeclaresGlobal (engine : EngineTable) (final : Analysis) (isConst : Bool) (d : Declarator)
    (info : VarInfo) (s s' : CheckState) : Prop where
  scopes : s'.scopes = s.scopes
  isNew : s.globals.lookup d.name = none
  names : s'.globals = (d.name, s.analysis.vars.size) :: s.globals
  vars : s'.analysis.vars = s.analysis.vars.push info
  varsOk : s.VarsOk → s'.VarsOk
  init : ∀ e, d.init = some e → ExprOk engine final e ∧ ExprRead s final e
  value : info.value = if isConst then d.init.bind final.valueOf else none

structure KeepsGlobals (s s' : CheckState) : Prop where
  scopes : s'.scopes = s.scopes
  names : s'.globals = s.globals
  vars : ∀ (var : VarId) info, s.analysis.vars[var]? = some info → s'.analysis.vars[var]? = some info
  varsOk : s.VarsOk → s'.VarsOk

theorem KeepsGlobals.refl (s : CheckState) : KeepsGlobals s s := ⟨rfl, rfl, fun _ _ h => h, id⟩

theorem KeepsGlobals.trans {s'' : CheckState} (h : KeepsGlobals s s') (h' : KeepsGlobals s' s'') :
    KeepsGlobals s s'' :=
  ⟨h'.scopes.trans h.scopes, h'.names.trans h.names, fun var info hv => h'.vars var info (h.vars var info hv),
    fun hv => h'.varsOk (h.varsOk hv)⟩

def DeclaresGlobals (engine : EngineTable) (final : Analysis) :
    List (Bool × Declarator) → CheckState → CheckState → Prop
  | [], s, s' => KeepsGlobals s s'
  | d :: ds, s, s' => ∃ s0 info s1, KeepsGlobals s s0 ∧ DeclaresGlobal engine final d.1 d.2 info s0 s1 ∧
      DeclaresGlobals engine final ds s1 s'

theorem DeclaresGlobals.append {final : Analysis} {ds ds' : List (Bool × Declarator)}
    {s'' : CheckState} (h : DeclaresGlobals engine final ds s s')
    (h' : DeclaresGlobals engine final ds' s' s'') :
    DeclaresGlobals engine final (ds ++ ds') s s'' := by
  induction ds generalizing s with
  | nil =>
    cases ds' with
    | nil => exact KeepsGlobals.trans h h'
    | cons d ds' =>
      obtain ⟨s0, info, s1, hkeeps, hrest⟩ := h'
      exact ⟨s0, info, s1, KeepsGlobals.trans h hkeeps, hrest⟩
  | cons d ds ih =>
    obtain ⟨s0, info, s1, hkeeps, hd, hrest⟩ := h
    exact ⟨s0, info, s1, hkeeps, hd, ih hrest⟩

structure GlobalsChecked (engine : EngineTable) (s : CheckState) (isConst : Bool)
    (ds : List Declarator) (s' : CheckState) (final : Analysis) : Prop where
  declared : ∀ d ∈ ds, ∃ var info, DeclaresVar engine final .global s.visible d var info ∧
    info.isConst = isConst
  scopes : s'.scopes = s.scopes
  globals : s'.analysis.globals =
    s.analysis.globals ++ ds.filterMap fun d => final.decls.get? d.node.id
  nodup : s.analysis.globals.Nodup → s'.analysis.globals.Nodup
  varsOk : s.VarsOk → s'.VarsOk
  findings : s'.findings = s.findings
  declares : DeclaresGlobals engine final (ds.map fun d => (isConst, d)) s s'

theorem sound_globalDeclarators (hinv : s.Inv) (hfresh : s.Fresh (ds.flatMap Declarator.ids))
    (hnodup : (ds.flatMap Declarator.ids).Nodup) :
    Sound (ds.flatMap Declarator.ids) (ds.forM (checkDeclarator engine .global isConst type)) s
      fun _ s' final => ∀ ty, type = some ty → final.Storable ty →
        GlobalsChecked engine s isConst ds s' final := by
  induction ds generalizing s with
  | nil =>
    exact .pure fun _ _ _ _ _ _ =>
      ⟨fun _ h => absurd h not_mem_nil, rfl, (append_nil _).symm, id, id, rfl, .refl s⟩
  | cons d ds ih =>
    obtain ⟨hfresh1, hfresh2, hnodup1, hnodup2, hdisjoint⟩ := declarators_split hfresh hnodup
    have hfirst : Sound d.ids (checkDeclarator engine .global isConst type d) s _ :=
      sound_checkDeclarator .global d (D := DeclaredGlobal d.name)
        (fun _ _ hvar => sound_declareGlobal hvar d.name d.node.pos) hinv hfresh1 hnodup1
    rw [flatMap_cons]
    refine hfirst.bind hdisjoint fun _ s1 _ hw => ?_
    refine (ih (hw.inv hinv) (hw.fresh hfresh2 hdisjoint) hnodup2).weaken ?_
    rintro - s2 final - - - hrest - hd - ty rfl hst
    obtain ⟨var, info, s0, hdecl, ⟨hnew, rfl⟩, hs0⟩ := hd ty rfl hst
    obtain ⟨hdeclared, hscopes2, hglobals2, hnodup2, hok2, hfindings2, hdeclares2⟩ := hrest ty rfl hst
    have hglobals1 : s0.analysis.globals ++ [var] = s.analysis.globals ++ [var] := by rw [hs0.globals]
    have hok0 (h : s.VarsOk) : VarsOk { s0 with
        globals := (d.name, var) :: s0.globals
        analysis := { s0.analysis with globals := s0.analysis.globals ++ [var] } } :=
      h.push (hdecl.varOk h) hs0.vars (hs0.stuck h)
    refine ⟨fun x hx => ?_, hscopes2.trans hs0.scopes, ?_, fun h => hnodup2 ?_,
      fun h => hok2 (hok0 h), hfindings2.trans hs0.findings, s, info,
      _, .refl s, ?_, hdeclares2⟩
    · rcases mem_cons.mp hx with rfl | hx
      · exact ⟨var, info, hdecl.declares, hdecl.isConst⟩
      · have hvisible : s0.visible = s.visible := by rw [visible, visible, hs0.scopes]
        exact hvisible ▸ hdeclared x hx
    · rw [hglobals2, hglobals1, append_assoc, filterMap_cons, hdecl.declares.decl]
      rfl
    · rw [hglobals1, nodup_append']
      refine ⟨h, nodup_singleton _, fun v hv hmem => ?_⟩
      obtain rfl := mem_singleton.mp hmem
      exact Nat.lt_irrefl _ (hdecl.isNew ▸ hinv.known v hv)
    · exact ⟨hs0.scopes, hs0.names ▸ hnew, hdecl.isNew ▸ hs0.names ▸ rfl, hs0.vars, hok0,
        fun e he => ⟨(hdecl.declares.init e he).ok, hdecl.read e he⟩, hdecl.known⟩

end Check
end Nwscript
