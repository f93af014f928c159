import Nwscript.Proofs.Code.Stmt
import Nwscript.Proofs.Engine.Table

/-! # What code generation starts from

An engine table that was read from a definition script is in order, and so is what code generation
knows of a program without errors. The global variables that are no constants lie one above the other,
as long as their sizes do not wrap. -/

open List

namespace Nwscript

theorem EngineTable.ok_of_ofSource {t : EngineTable} {version source : String}
    (h : ofSource version source = .ok t) : t.Ok := by
  obtain ⟨tokens, -, hholds⟩ := holds_of_ofSource h
  intro i f hf
  have hmem : f ∈ t.functions.toList := Array.mem_toList_iff.mpr (Array.mem_of_getElem? hf)
  obtain ⟨decl, -, -, hret, -⟩ := exists_of_forall₂ hholds.functions hmem
  exact ⟨hholds.ordinals i f hf, hasSlot_of_denotes hret⟩

/-! ## Global variables -/

namespace GlobalLayout

variable {a : Analysis} {layout : GlobalLayout} {var : VarId} {info : VarInfo}

theorem add_of_const (hinfo : a.vars[var]? = some info) (hconst : info.isConst = true) :
    layout.add a var = layout := by
  simp [add, hinfo, hconst]

theorem add_of_not_const (hinfo : a.vars[var]? = some info) (hconst : info.isConst = false) :
    layout.add a var =
      ⟨(var, layout.size) :: layout.offsets, wrap32 (layout.size + a.sizeOf info.type)⟩ := by
  simp [add, hinfo, hconst]

variable {vars : List VarId}

theorem lookup_foldl_of_lookup {offset : Int} (h : layout.offsets.lookup var = some offset) :
    ∃ offset, (vars.foldl (add a) layout).offsets.lookup var = some offset := by
  induction vars generalizing layout offset with
  | nil => exact ⟨offset, h⟩
  | cons other vars ih =>
    rw [foldl_cons]
    have hkeeps : ∃ offset, (layout.add a other).offsets.lookup var = some offset := by
      unfold add
      split
      · split
        · exact ⟨offset, h⟩
        · by_cases heq : var = other
          · exact ⟨layout.size, by simp [heq]⟩
          · have hne : (var == other) = false := by simpa using heq
            exact ⟨offset, by simpa [lookup_cons, hne] using h⟩
      · exact ⟨offset, h⟩
    obtain ⟨offset, h⟩ := hkeeps
    exact ih h

theorem lookup_foldl (hvar : var ∈ vars) (hinfo : a.vars[var]? = some info)
    (hconst : info.isConst = false) :
    ∃ offset, (vars.foldl (add a) layout).offsets.lookup var = some offset := by
  induction vars generalizing layout with
  | nil => cases hvar
  | cons other vars ih =>
    rw [foldl_cons]
    rcases mem_cons.mp hvar with rfl | hvar
    · rw [add_of_not_const hinfo hconst]
      exact lookup_foldl_of_lookup lookup_cons_self
    · exact ih hvar

theorem foldl_add_of_const (h : ∀ var ∈ vars, ∃ info, a.vars[var]? = some info ∧ info.isConst = true) :
    vars.foldl (add a) layout = layout := by
  induction vars with
  | nil => rfl
  | cons var vars ih =>
    obtain ⟨info, hinfo, hconst⟩ := h var (.head _)
    rw [foldl_cons, add_of_const hinfo hconst]
    exact ih fun var hvar => h var (.tail _ hvar)

theorem size_foldl (hsizes : ∀ type, 0 ≤ a.sizeOf type)
    (h : ∀ var ∈ vars, ∃ info, a.vars[var]? = some info ∧ info.isConst = false)
    (hsize : 0 ≤ layout.size) (hfits : layout.size + Gen.extent a vars < 2 ^ 31) :
    (vars.foldl (add a) layout).size = layout.size + Gen.extent a vars := by
  induction vars generalizing layout with
  | nil => simp [Gen.extent]
  | cons var vars ih =>
    obtain ⟨info, hinfo, hconst⟩ := h var (.head _)
    have hext := Gen.extent_cons hinfo vars
    have hvar := hsizes info.type
    have hrest : 0 ≤ Gen.extent a vars := by
      refine sum_nonneg fun size hmem => ?_
      obtain ⟨other, -, rfl⟩ := mem_map.mp hmem
      unfold Gen.varSize
      split
      · exact hsizes _
      · exact Int.le_refl 0
    have hsum : (layout.add a var).size = layout.size + a.sizeOf info.type := by
      rw [add_of_not_const hinfo hconst]
      exact wrap32_of_fits ⟨by omega, by omega⟩
    rw [foldl_cons, ih (fun var hvar => h var (.tail _ hvar)) (by omega) (by omega)]
    omega

end GlobalLayout

def declaredVars (a : Analysis) (ds : List Declarator) : List VarId :=
  ds.filterMap fun d => a.decls.get? d.node.id

variable {engine : EngineTable} {a : Analysis}

theorem ProgramOk.globalDeclarator {items : Program} (h : ProgramOk engine a items) {d : Declarator}
    (hd : d ∈ Gen.globalDeclarators items) :
    ∃ var info, DeclaresVar engine a .global [] d var info ∧ info.isConst = false := by
  obtain ⟨item, hitem, hd⟩ := mem_flatMap.mp hd
  cases item with
  | «global» decl =>
    dsimp only at hd
    split at hd
    · cases hd
    · next hconst =>
      obtain ⟨var, info, hvar, hinfo⟩ := h.global decl hitem d hd
      exact ⟨var, info, hvar, by rw [hinfo]; exact Bool.eq_false_iff.mpr hconst⟩
  | _ => cases hd

theorem ProgramOk.layout {items : Program} (h : ProgramOk engine a items) : GlobalLayout.ofAnalysis a =
      (declaredVars a (Gen.globalDeclarators items)).foldl (GlobalLayout.add a) {} := by
  have hglobal := h.global
  rw [GlobalLayout.ofAnalysis, h.globals]
  clear h
  generalize ({} : GlobalLayout) = layout
  induction items generalizing layout with
  | nil => rfl
  | cons item items ih =>
    have ih := ih fun decl hdecl => hglobal decl (.tail _ hdecl)
    cases item with
    | «global» decl =>
      have hitem := hglobal decl (.head _)
      simp only [Program.globals, Gen.globalDeclarators, declaredVars, flatMap_cons,
        filterMap_append, foldl_append] at ih ⊢
      rw [ih]
      congr 1
      cases hconst : decl.isConst with
      | false => rfl
      | true =>
        refine GlobalLayout.foldl_add_of_const fun var hvar => ?_
        obtain ⟨d, hd, hdecl⟩ := mem_filterMap.mp hvar
        obtain ⟨var', info, hdeclares, hinfo⟩ := hitem d hd
        cases hdecl.symm.trans hdeclares.decl
        exact ⟨info, hdeclares.known, by rw [hinfo, hconst]⟩
    | _ => exact ih layout

theorem ProgramOk.genContext {program : Program} (h : ProgramOk engine a program)
    (hengine : engine.Ok) (hsmall : a.structs.Small) :
    GenContext.Ok { analysis := a, engine, globals := .ofAnalysis a } where
  structs := h.structs
  small := hsmall
  vars := h.vars
  signatures := h.signatures
  engine := hengine
  globals var hvar := by
    have hmem := hvar
    rw [h.globals] at hmem
    obtain ⟨d, hd, hdecl⟩ := mem_filterMap.mp hmem
    obtain ⟨item, hitem, hd⟩ := mem_flatMap.mp hd
    cases item with
    | «global» decl =>
      obtain ⟨var', info, hdeclares, -⟩ := h.global decl hitem d hd
      cases hdecl.symm.trans hdeclares.decl
      exact ⟨info, hdeclares.known, hdeclares.storable,
        fun hconst => GlobalLayout.lookup_foldl hvar hdeclares.known hconst⟩
    | _ => cases hd

end Nwscript
