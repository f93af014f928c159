import Nwscript.Proofs.Typing.Signatures
import Nwscript.Proofs.Typing.Stmt

/-! # Checked programs

A program without errors is in order: its structures, signatures, global variables and bodies follow
the typing rules, with the tables that the check leaves behind. -/

open List

namespace Nwscript

variable {engine : EngineTable} {s : CheckState} {f : FuncInfo}

namespace Check

open CheckState

/-! ## Bodies -/

theorem sound_declareParams {ps : List Param} {qs : List FuncParam} (hinv : s.Inv)
    (hopen : s.scopes.scopes ≠ []) (hfresh : s.Fresh (ps.flatMap Param.ids))
    (hnodup : (ps.flatMap Param.ids).Nodup) :
    Sound (ps.flatMap Param.ids) (declareParams ps qs) s fun _ s' final => Introduces [] s s' ∧
      (ps.length = qs.length → ParamsOk final s.visible ps qs s'.visible) := by
  induction ps generalizing qs s with
  | nil =>
    cases qs with
    | nil => exact .pure fun _ _ _ => ⟨.refl s, fun _ => rfl⟩
    | cons q qs => exact .pure fun _ _ _ => ⟨.refl s, fun h => by cases h⟩
  | cons p ps ih =>
    cases qs with
    | nil => exact .pure fun _ _ _ => ⟨.refl s, fun h => by cases h⟩
    | cons q qs =>
      obtain ⟨hnodup1, hnodup2, hdisjoint⟩ := nodup_append'.mp (flatMap_cons ▸ hnodup)
      have hsub : [p.node.id] ⊆ p.ids := fun _ h => mem_singleton.mp h ▸ .head _
      have hdisjoint1 : [p.node.id].Disjoint (ps.flatMap Param.ids) := fun _ h h' => hdisjoint (hsub h) h'
      refine (?_ : Sound ([p.node.id] ++ ps.flatMap Param.ids) _ _ _).mono ?_
      · rw [declareParams]
        refine (sound_newVar _ s).bind (disjoint_nil_left _) fun var s1 hvar hw1 => ?_
        obtain ⟨rfl, rfl⟩ := Prod.mk.inj ((newVar_apply _ s).symm.trans hvar)
        refine (sound_declareLocal (by simp) p.name p.node.pos rfl).bind (disjoint_nil_left _)
          fun _ s2 _ hw2 => ?_
        refine (sound_recordDecl p.node.id _ s2).bind hdisjoint1 fun _ s3 _ hw3 => ?_
        have hw : Writes [p.node.id] s s3 := (hw1.trans hw2).trans hw3
        have hfresh3 : s3.Fresh (ps.flatMap Param.ids) := hw.fresh
          (fun id hid => hfresh id (flatMap_cons ▸ mem_append_right _ hid)) hdisjoint1
        refine (ih (hw.inv hinv) (hw.isOpen hopen) hfresh3 hnodup2).weaken ?_
        rintro - s4 final - - - ⟨hintro, hparams⟩ - ⟨hdecl, hstays⟩ - - ⟨⟨scopes, rfl⟩, hvisible⟩ - -
          ⟨-, hknown, -⟩ -
        have hvisible3 : s3.visible = s.analysis.vars.size :: s.visible := by
          rw [hstays.visible, hvisible hopen]
          rfl
        have hintro3 : Introduces [] s s3 :=
          ⟨hstays.names, hstays.globals, fun h => hstays.varsOk (h.push ⟨rfl, by simp⟩ rfl h.2),
            hstays.findings⟩
        refine ⟨hintro3.trans hintro, fun hlen => ?_⟩
        refine ⟨_, _, hdecl, fun hmem => ?_, hknown, rfl, rfl, hvisible3 ▸ hparams (Nat.succ.inj hlen)⟩
        exact Nat.lt_irrefl _ (hinv.visible _ hmem)
      · rw [flatMap_cons]
        exact fun id hid => (mem_append.mp hid).elim
          (fun h => mem_append_left _ (hsub h)) (mem_append_right _)

theorem sound_checkBody {decl : FunctionDecl} {body : List Stmt} (hinv : s.Inv)
    (hfresh : s.Fresh (decl.params.flatMap Param.ids ++ Stmt.idsOf body))
    (hnodup : (decl.params.flatMap Param.ids ++ Stmt.idsOf body).Nodup) :
    Sound (decl.params.flatMap Param.ids ++ Stmt.idsOf body) (checkBody engine decl body f) s
      fun _ s' final => s'.scopes = s.scopes ∧ Introduces (warnedIn false {} body final) s s' ∧
        (s.scopes.scopes = [] → decl.params.length = f.params.length →
          FunctionOk engine final decl body f) := by
  obtain ⟨hnodup1, hnodup2, hdisjoint⟩ := nodup_append'.mp hnodup
  have hnone : s.scopes.scopes = [] → visible { s with scopes := s.scopes.push } = [] := by
    intro houter
    simp [visible, ScopeStack.push, houter]
  have hbody : Sound (decl.params.flatMap Param.ids ++ Stmt.idsOf body)
      (do declareParams decl.params f.params; checkStmts engine { ret := f.ret } {} body)
      { s with scopes := s.scopes.push } fun _ s' final =>
        (s.scopes.scopes = [] → decl.params.length = f.params.length → ∃ visible,
          ParamsOk final [] decl.params f.params visible ∧
          BlockOk engine final { ret := f.ret } visible body) ∧
        Introduces (warnedIn false {} body final) { s with scopes := s.scopes.push } s' := by
    refine (sound_declareParams (inv_push hinv) (cons_ne_nil _ _)
      (fun id hid => hfresh id (mem_append_left _ hid)) hnodup1).bind hdisjoint
      fun _ s1 _ hw => ?_
    refine (sound_checkStmts (fun st _ => checksStmt engine st) rfl (hw.inv (inv_push hinv))
      (hw.isOpen (cons_ne_nil _ _))
      (hw.fresh (fun id hid => hfresh id (mem_append_right _ hid)) hdisjoint) hnodup2).weaken ?_
    rintro - s2 final - - - ⟨hblock, hintro2⟩ - ⟨hintro1, hparams⟩ -
    refine ⟨fun houter hlen => ⟨s1.visible, ?_, hblock⟩, hintro1.trans hintro2⟩
    exact hnone houter ▸ hparams hlen
  refine (keeps_inScope hbody).bindLast fun _ s1 _ hw => .read (analysis_apply s1) ?_
  split
  · exact .report _ rfl
  · next hreturns =>
    refine .pure ?_
    rintro final - - - ⟨hscopes, hintro, hscope⟩ hs
    refine ⟨hscopes, hintro, fun houter hlen => ⟨hscope houter hlen, fun hret => ?_⟩⟩
    have hsame : SameValues final.consts s1.analysis.consts (Stmt.idsOf body) :=
      fun id hid => hs.consts (mem_append_right _ hid)
    rw [blockFallsThrough_congr hsame]
    simpa [hret] using hreturns

/-! ## Items -/

def IsDefinedBy (a : Analysis) (name : String) (index : Nat) (f : FuncInfo) : Prop :=
  ∃ id, a.function? name = some id ∧ a.definition? id = some index ∧ a.functions[id]? = some f

theorem definedBy_apply (name : String) (index : Nat) (s : CheckState) :
    ∃ r, definedBy name index s = (r, s) ∧ ∀ f, r = some f ↔ IsDefinedBy s.analysis name index f := by
  cases hid : s.analysis.function? name with
  | none =>
    refine ⟨none, by simp [definedBy, hid], fun f => ⟨fun h => (by cases h), ?_⟩⟩
    rintro ⟨id, h, -⟩
    cases hid.symm.trans h
  | some id =>
    refine ⟨if s.analysis.definition? id = some index then s.analysis.functions[id]? else none, ?_,
      fun f => ?_⟩
    · simp only [definedBy, bind_apply, analysis_apply, hid, pure_apply]
      rfl
    constructor
    · intro h
      split at h
      · next hindex => exact ⟨id, hid, hindex, h⟩
      · cases h
    · rintro ⟨id', h, hindex, hf⟩
      cases hid.symm.trans h
      rw [if_pos hindex, hf]

variable {index : Nat}

theorem IsDefinedBy.of_settled {a final : Analysis} {ids : List NodeId} {name : String}
    (h : IsDefinedBy final name index f) (hs : a.Settled final ids) : IsDefinedBy a name index f := by
  unfold IsDefinedBy Analysis.function? Analysis.definition? at h
  rwa [hs.functions, hs.definitions] at h

def warnedAt (final : Analysis) : Item → List Pos
  | .function _ body => warnedIn false {} body final
  | _ => []

structure ItemsChecked (engine : EngineTable) (s : CheckState) (index : Nat) (items : Program)
    (s' : CheckState) (final : Analysis) : Prop where
  scopes : s'.scopes = s.scopes
  varsOk : s.VarsOk → s'.VarsOk
  globals : s'.analysis.globals = s.analysis.globals ++
    (Program.globals items).filterMap fun d => final.decls.get? d.node.id
  nodup : s.analysis.globals.Nodup → s'.analysis.globals.Nodup
  global : ∀ decl, .global decl ∈ items → ∀ d ∈ decl.vars, ∃ var info,
    DeclaresVar engine final .global [] d var info ∧ info.isConst = decl.isConst
  function : ∀ (i : Nat) decl body f, items[i]? = some (.function decl body) →
    IsDefinedBy final decl.name (index + i) f → decl.params.length = f.params.length →
    FunctionOk engine final decl body f
  findings : (∀ (i : Nat) decl body, items[i]? = some (.function decl body) →
      ∃ f, IsDefinedBy final decl.name (index + i) f) →
    s'.findings = warnings (items.flatMap (warnedAt final)) ++ s.findings
  declares : DeclaresGlobals engine final (items.flatMap Item.declared) s s'

theorem ItemsChecked.refl (engine : EngineTable) (s : CheckState) (index : Nat) (final : Analysis) :
    ItemsChecked engine s index [] s final :=
  ⟨rfl, id, (append_nil _).symm, id, fun _ h => absurd h not_mem_nil,
    fun _ _ _ _ h => by simp at h, fun _ => rfl, .refl s⟩

theorem ItemsChecked.cons {s1 s2 : CheckState} {item : Item} {items : Program} {final : Analysis}
    (hrest : ItemsChecked engine s1 (index + 1) items s2 final) (hscopes : s1.scopes = s.scopes)
    (hvars : s.VarsOk → s1.VarsOk) (hglobals : s1.analysis.globals = s.analysis.globals ++
      (Program.globals [item]).filterMap fun d => final.decls.get? d.node.id)
    (hnodup : s.analysis.globals.Nodup → s1.analysis.globals.Nodup)
    (hglobal : ∀ decl, item = .global decl → ∀ d ∈ decl.vars, ∃ var info,
      DeclaresVar engine final .global [] d var info ∧ info.isConst = decl.isConst)
    (hfunction : ∀ decl body f, item = .function decl body → IsDefinedBy final decl.name index f →
      decl.params.length = f.params.length → FunctionOk engine final decl body f)
    (hfindings : (∀ decl body, item = .function decl body → ∃ f, IsDefinedBy final decl.name index f) →
      s1.findings = warnings (warnedAt final item) ++ s.findings)
    (hdeclares : DeclaresGlobals engine final item.declared s s1) :
    ItemsChecked engine s index (item :: items) s2 final := by
  refine ⟨hrest.scopes.trans hscopes, fun h => hrest.varsOk (hvars h), ?_,
    fun h => hrest.nodup (hnodup h), fun decl hmem => ?_, fun i decl body f hi hdefined => ?_,
    fun hall => ?_, hdeclares.append hrest.declares⟩
  · rw [hrest.globals, hglobals, append_assoc, ← filterMap_append]
    simp [Program.globals]
  · rcases mem_cons.mp hmem with h | hmem
    · exact hglobal decl h.symm
    · exact hrest.global decl hmem
  · cases i with
    | zero => exact hfunction decl body f (by simpa using hi) hdefined
    | succ i => exact hrest.function i decl body f hi (by rwa [Nat.add_right_comm])
  · rw [hrest.findings fun i decl body hi => Nat.add_right_comm index 1 i ▸ hall (i + 1) decl body hi,
      hfindings fun decl body hitem => hall 0 decl body (by simp [hitem])]
    simp [warnings]

theorem sound_checkItems {items : Program} (hinv : s.Inv) (hfresh : s.Fresh (Program.ids items))
    (hnodup : (Program.ids items).Nodup) :
    Sound (Program.ids items) (checkItems engine index items) s fun _ s' final =>
      s.scopes.scopes = [] → ItemsChecked engine s index items s' final := by
  induction items generalizing index s with
  | nil => exact .pure fun final _ _ _ => .refl engine s index final
  | cons item items ih =>
    have hcons : Program.ids (item :: items) = item.ids ++ Program.ids items := rfl
    rw [hcons] at hfresh hnodup ⊢
    obtain ⟨hnodup1, hnodup2, hdisjoint⟩ := nodup_append'.mp hnodup
    have hfresh1 : s.Fresh item.ids := fun id hid => hfresh id (mem_append_left _ hid)
    have hfresh2 : s.Fresh (Program.ids items) := fun id hid => hfresh id (mem_append_right _ hid)
    have hrest : ∀ s1 : CheckState, Writes item.ids s s1 → Sound (Program.ids items)
        (checkItems engine (index + 1) items) s1 fun _ s2 final =>
          s1.scopes.scopes = [] → ItemsChecked engine s1 (index + 1) items s2 final :=
      fun s1 hw => ih (hw.inv hinv) (hw.fresh hfresh2 hdisjoint) hnodup2
    cases item with
    | global decl =>
      have hdecl : Sound (Item.ids (.global decl)) (checkVarDecl engine .global decl) s
          fun _ s' final => GlobalsChecked engine s decl.isConst decl.vars s' final := by
        refine (sound_variableType engine decl s).bind (disjoint_nil_left _) fun type s1 _ hw => ?_
        refine (sound_globalDeclarators (hw.inv hinv)
          (hw.fresh hfresh1 (disjoint_nil_left _)) hnodup1).weaken ?_
        rintro - s2 final - - - h - ⟨rfl, ty, rfl, hstorable⟩ -
        exact h ty rfl hstorable
      refine hdecl.bind hdisjoint fun _ s1 _ hw => (hrest s1 hw).weaken ?_
      rintro - s2 final - - - hitems - hglobals - houter
      have hvisible : s.visible = [] := by simp [visible, houter]
      refine (hitems (hglobals.scopes ▸ houter)).cons hglobals.scopes hglobals.varsOk ?_ hglobals.nodup
        ?_ ?_ (fun _ => hglobals.findings) hglobals.declares
      · rw [hglobals.globals]
        simp [Program.globals]
      · rintro _ ⟨⟩
        exact hvisible ▸ hglobals.declared
      · rintro _ _ _ ⟨⟩
    | function decl body =>
      obtain ⟨r, hr, hdefined⟩ := definedBy_apply decl.name index s
      -- whatever is run for the body, the items behind it follow
      have hboth (m : Check Unit) (W : Analysis → List Pos)
          (hbody : Sound (Item.ids (.function decl body)) m s fun _ s' final =>
          s'.scopes = s.scopes ∧ Introduces (W final) s s' ∧
          ((∃ f, IsDefinedBy final decl.name index f) → W final = warnedIn false {} body final) ∧
          (s.scopes.scopes = [] → ∀ f, IsDefinedBy final decl.name index f →
            decl.params.length = f.params.length → FunctionOk engine final decl body f)) :
          Sound (Item.ids (.function decl body) ++ Program.ids items)
            (m >>= fun _ => checkItems engine (index + 1) items) s fun _ s2 final =>
          s.scopes.scopes = [] →
            ItemsChecked engine s index (.function decl body :: items) s2 final := by
        refine hbody.bind hdisjoint fun _ s1 _ hw => (hrest s1 hw).weaken ?_
        rintro - s2 final - - - hitems - ⟨hscopes, hintro, hW, hok⟩ - houter
        refine (hitems (hscopes ▸ houter)).cons hscopes hintro.varsOk ?_ ?_ ?_ ?_ (fun hdef => ?_)
          ⟨hscopes, hintro.names, hw.vars, hintro.varsOk⟩
        · rw [hintro.globals]
          simp [Program.globals]
        · exact fun h => hintro.globals ▸ h
        · rintro _ ⟨⟩
        · rintro _ _ f ⟨⟩
          exact hok houter f
        · rw [hintro.findings, hW (hdef decl body rfl), warnedAt]
      rw [checkItems]
      refine .read hr ?_
      cases r with
      | some f =>
        have hb : Sound _ (checkBody engine decl body f) s _ := sound_checkBody hinv hfresh1 hnodup1
        refine hboth (checkBody engine decl body f) (warnedIn false {} body) (hb.weaken ?_)
        rintro _ s' final heq - hs ⟨hscopes, hintro, hok⟩
        refine ⟨hscopes, hintro, fun _ => rfl, fun houter g hg => ?_⟩
        have hsettled : s.analysis.Settled final [] :=
          hb.writes.settled (heq ▸ hs.subset (nil_subset _)) (disjoint_nil_right _)
        cases (hdefined g).mpr (hg.of_settled hsettled)
        exact hok houter
      | none =>
        have hnone {final : Analysis} (hs : s.analysis.Settled final (Item.ids (.function decl body)))
            {g : FuncInfo} (hg : IsDefinedBy final decl.name index g) : False := by
          cases (hdefined g).mpr (hg.of_settled hs)
        exact hboth (pure ()) silent (.pure fun final _ hs => ⟨rfl, .refl s,
          fun hdef => hdef.elim fun _ hg => (hnone hs hg).elim, fun _ g hg => (hnone hs hg).elim⟩)
    | _ =>
      refine (hrest s (Writes.refl _ s)).mono (subset_append_right _ _) |>.weaken ?_
      rintro - s2 final - - - hitems houter
      refine (hitems houter).cons rfl id ?_ id ?_ ?_ (fun _ => rfl) (.refl s)
      · simp [Program.globals]
      · rintro _ ⟨⟩
      · rintro _ _ _ ⟨⟩

/-! ## The entry point -/

def EntryOk (a : Analysis) (e : EntryPoint) : Prop :=
  ∃ f, a.functions[e.func]? = some f ∧ f.defined = true ∧ f.params = [] ∧ f.ret = e.kind.ret

def AddsEntry (s s' : CheckState) : Prop :=
  ∃ entry, s' = { s with analysis := { s.analysis with entry } } ∧
    ((∀ e ∈ s.analysis.entry, EntryOk s.analysis e) → ∀ e ∈ entry, EntryOk s.analysis e)

theorem AddsEntry.trans {s' s'' : CheckState} (h : AddsEntry s s') (h' : AddsEntry s' s'') :
    AddsEntry s s'' := by
  obtain ⟨entry, rfl, hok⟩ := h
  obtain ⟨entry', rfl, hok'⟩ := h'
  exact ⟨entry', rfl, fun h => hok' (hok h)⟩

theorem candidate_apply (kind : EntryKind) (s : CheckState) : ∃ r, candidate kind s = (r, s) ∧
    ∀ func f, r = some (func, f) → s.analysis.functions[func]? = some f := by
  unfold candidate
  cases hid : s.analysis.function? kind.name with
  | none => exact ⟨none, by simp [hid], fun _ _ h => by cases h⟩
  | some id =>
    obtain ⟨g, hg, -⟩ := function?_eq_some hid
    refine ⟨some (id, g), by simp [hid, hg], fun func f h => ?_⟩
    cases h
    exact hg

theorem ends_checkCandidate (kind : EntryKind) (s : CheckState) :
    Ends (checkCandidate kind) s fun _ s' => AddsEntry s s' := by
  obtain ⟨r, hr, hf⟩ := candidate_apply kind s
  refine .read hr ?_
  cases r with
  | none => exact .pure ⟨_, rfl, id⟩
  | some p =>
    obtain ⟨func, f⟩ := p
    have hf := hf func f rfl
    dsimp only
    split
    · exact .report _ rfl
    · next hsignature =>
      split
      · exact .report _ rfl
      · next hdefined =>
        refine .record (fun _ _ => rfl) (fun _ => ⟨rfl, rfl⟩) ⟨_, rfl, fun hok e he => ?_⟩
        rcases Option.or_eq_some_iff.mp he with he | ⟨-, he⟩
        · exact hok e he
        · cases he
          simp only [ne_eq, Bool.or_eq_true, decide_eq_true_eq, Bool.not_eq_true', not_or, not_not,
            Bool.not_eq_false, List.isEmpty_iff] at hsignature
          exact ⟨f, hf, by simpa using hdefined, hsignature.2, hsignature.1⟩

theorem ends_checkEntry (s : CheckState) : Ends checkEntry s fun _ s' => AddsEntry s s' := by
  have hboth : Ends (do checkCandidate .main; checkCandidate .startingConditional) s
      fun _ s' => AddsEntry s s' :=
    (ends_checkCandidate .main s).bind fun _ s1 =>
      (ends_checkCandidate .startingConditional s1).weaken fun _ _ h2 h1 => h1.trans h2
  obtain ⟨r1, hr1, -⟩ := candidate_apply .main s
  obtain ⟨r2, hr2, -⟩ := candidate_apply .startingConditional s
  refine .read hr1 (.read hr2 ?_)
  split
  · split
    · exact .report _ rfl
    · exact hboth
  · exact hboth

end Check

/-! ## Programs -/

namespace Check

def collect (engine : EngineTable) (program : Program) : Check Unit := do
  let early ← collectTypes engine [] program
  collectFunctions engine early 0 program

variable {program : Program}

theorem ends_collect (htrails : ∀ item ∈ program, Parser.ItemTrails item) :
    Ends (collect engine program) {} fun _ s => StructsOk s.analysis.structs.defs ∧
      TableOk engine (earlyConsts engine program) program program s.analysis ∧
      ∃ structs functions definitions, s = { analysis := { structs, functions, definitions } } := by
  have htypes : Ends (collectTypes engine [] program) {} fun early s =>
      early = earlyConsts engine program ∧ AddsStructs {} s :=
    { ends_collectTypes engine [] program {} with
      post := fun h => ⟨collectTypes_fst engine [] program {},
        (ends_collectTypes engine [] program {}).post h⟩ }
  refine htypes.bind fun early s1 => ?_
  refine (ends_collectFunctions htrails (nil_append program).symm s1).weaken ?_
  rintro _ s2 ⟨functions, definitions, rfl, htable⟩ ⟨rfl, structs, rfl, hstructs⟩
  refine ⟨hstructs trivial, htable ⟨⟨?_, ?_, ?_⟩, ?_, ?_, ?_⟩, structs, functions, definitions, rfl⟩
  all_goals simp

/-- What a check without errors goes through: the state behind the collection, the one behind the
items, and the last one. -/
structure Passes (engine : EngineTable) (program : Program) (s s' final : CheckState) : Prop where
  structs : StructsOk s.analysis.structs.defs
  table : TableOk engine (earlyConsts engine program) program program s.analysis
  bare : ∃ structs functions definitions, s = { analysis := { structs, functions, definitions } }
  writes : CheckState.Writes program.ids s s'
  items : ItemsChecked engine s 0 program s' final.analysis
  entry : AddsEntry s' final

namespace Passes

variable {engine : EngineTable} {program : Program} {s s' final : CheckState}

theorem functions (h : Passes engine program s s' final) :
    final.analysis.functions = s.analysis.functions := by
  obtain ⟨entry, rfl, -⟩ := h.entry
  exact h.writes.functions

theorem definition? (h : Passes engine program s s' final) (func : FuncId) :
    final.analysis.definition? func = s.analysis.definition? func := by
  obtain ⟨entry, rfl, -⟩ := h.entry
  exact congrArg (List.lookup func) h.writes.definitions

theorem function? (h : Passes engine program s s' final) {func : FuncId}
    (hf : s.analysis.functions[func]? = some f) : final.analysis.function? f.name = some func := by
  rw [Analysis.function?, h.functions]
  exact h.table.1.function? hf

theorem entered (h : Passes engine program s s' final) :
    Entered engine (earlyConsts engine program) program final.analysis where
  named decl hdecl := h.functions ▸ h.table.2.named decl hdecl
  placed index decl body hitem := by
    obtain ⟨func, f, hf, hname, hdefined, hindex⟩ := h.table.2.placed index decl body hitem
    exact ⟨func, f, h.functions ▸ hf, hname, hdefined, (h.definition? func).trans hindex⟩
  defaults func f i p hf := h.table.2.defaults func f i p (h.functions ▸ hf)

theorem varsOk (h : Passes engine program s s' final) : s'.VarsOk := by
  obtain ⟨structs, functions, definitions, hbare⟩ := h.bare
  exact h.items.varsOk ⟨fun _ _ h => by simp [hbare] at h, by rw [hbare]⟩

theorem stuck (h : Passes engine program s s' final) : final.stuck = false := by
  obtain ⟨entry, rfl, -⟩ := h.entry
  exact h.varsOk.2

theorem programOk (h : Passes engine program s s' final) : ProgramOk engine final.analysis program := by
  obtain ⟨structs, functions, definitions, hbare⟩ := h.bare
  obtain ⟨entry, hfinal, hentry⟩ := h.entry
  have hstructs : final.analysis.structs = s.analysis.structs := by
    rw [hfinal]
    exact h.writes.structs
  have hglobals : final.analysis.globals = s'.analysis.globals := by rw [hfinal]
  exact {
    structs := hstructs ▸ h.structs
    vars := fun var info hvar => h.varsOk.1 var info (by rwa [hfinal] at hvar)
    signatures := fun func f hf =>
      signatureOk_of_structs (h.table.1.signatures func f (h.functions ▸ hf)) hstructs
    defined := fun func f hf hdefined => by
      rw [h.functions] at hf
      obtain ⟨index, decl, body, hindex, hitem, hname, hlen⟩ := h.table.1.defined func f hf hdefined
      have hdefinition := (h.definition? func).trans hindex
      refine ⟨index, decl, body, hdefinition, hitem, h.items.function index decl body f hitem ?_ hlen⟩
      exact ⟨func, hname ▸ h.function? hf, by rwa [Nat.zero_add], by rwa [h.functions]⟩
    globals := by
      rw [hglobals, h.items.globals, hbare]
      rfl
    globalsNodup := by
      rw [hglobals]
      exact h.items.nodup (by simp [hbare])
    global := h.items.global
    entry := fun e he => by
      rw [hfinal] at he ⊢
      exact hentry (fun e he => by simp [h.writes.entry, hbare] at he) e he }

theorem findings (h : Passes engine program s s' final) :
    final.findings = CheckState.warnings (program.flatMap (warnedAt final.analysis)) := by
  obtain ⟨structs, functions, definitions, hbare⟩ := h.bare
  have hall := h.items.findings fun i decl body hitem => by
    obtain ⟨func, f, hf, hname, -, hindex⟩ := h.table.2.placed i decl body hitem
    exact ⟨f, func, hname ▸ h.function? hf, by rw [h.definition?, hindex, Nat.zero_add],
      h.functions ▸ hf⟩
  have hsame : final.findings = s'.findings := by
    obtain ⟨entry, rfl, -⟩ := h.entry
    rfl
  rw [hsame, hall, hbare]
  exact append_nil _

end Passes

open CheckState in
theorem passes_of_collected (hinv : s.Inv) (hfresh : s.Fresh program.ids) (hnodup : program.ids.Nodup)
    (hs : s.NoErrors → StructsOk s.analysis.structs.defs ∧
      TableOk engine (earlyConsts engine program) program program s.analysis ∧
      ∃ structs functions definitions, s = { analysis := { structs, functions, definitions } })
    (herrors : (checkEntry (checkItems engine 0 program s).2).2.NoErrors) :
    Passes engine program s (checkItems engine 0 program s).2
      (checkEntry (checkItems engine 0 program s).2).2 := by
  have hitems : Sound _ (checkItems engine 0 program) s _ := sound_checkItems hinv hfresh hnodup
  have hentry := ends_checkEntry (checkItems engine 0 program s).2
  have herrors1 := hentry.noErrors herrors
  obtain ⟨hstructs, htable, hbare⟩ := hs (hitems.writes.noErrors herrors1)
  refine ⟨hstructs, htable, hbare, hitems.writes, hitems.sound _ herrors1 ?_ ?_, hentry.post herrors⟩
  · obtain ⟨entry, hfinal, -⟩ := hentry.post herrors
    rw [hfinal]
    exact ⟨fun _ _ => rfl, fun _ _ h => h, fun _ h => h, rfl, rfl, rfl⟩
  · obtain ⟨structs, functions, definitions, rfl⟩ := hbare
    rfl

def collected (engine : EngineTable) (program : Program) : CheckState := (collect engine program {}).2

def checkedItems (engine : EngineTable) (program : Program) : CheckState :=
  (checkItems engine 0 program (collected engine program)).2

theorem check_passes (hnodup : program.ids.Nodup) (htrails : ∀ item ∈ program, Parser.ItemTrails item)
    (herrors : ∀ f ∈ (check engine program).findings, f.problem.severity ≠ .error) :
    Passes engine program (collected engine program) (checkedItems engine program)
      (checkEntry (checkedItems engine program)).2 := by
  have hcollect : Ends (collect engine program) {} _ := ends_collect htrails
  have hempty : CheckState.Inv {} := ⟨by simp [CheckState.visible], by simp, by simp⟩
  exact passes_of_collected (hcollect.inv hempty) (fun id _ => hcollect.facts id) hnodup
    hcollect.post fun f hf => herrors f (mem_reverse.mpr hf)

end Check

end Nwscript
