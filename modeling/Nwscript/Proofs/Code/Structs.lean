import Nwscript.Proofs.Code.Accepted
import Nwscript.Proofs.Code.Parts
import Nwscript.Proofs.Trace.Expr

/-! # Layout of structures

The structures of any program stand in the order of their declarations and have fields of earlier ones
only. Where no size wraps, the fields of a structure follow each other from its first byte to its last, a
place lies within its variable, and storage is reserved cell by cell. -/

open List Option

namespace Nwscript

open Gen

namespace StructTable

variable {t : StructTable} {defs : List StructDef} {a b : String}

/-! ## Structures in structures -/

def HasPart (t : StructTable) (a b : String) : Prop :=
  ∃ d, t.get? a = some d ∧ ∃ f ∈ d.fields, f.type = .struct b

theorem findIdx_lt (h : StructsOk t.defs) (hpart : t.HasPart a b) :
    t.defs.findIdx (fun d => d.name == a) < t.defs.findIdx fun d => d.name == b := by
  obtain ⟨d, hd, f, hf, hb⟩ := hpart
  obtain ⟨defs⟩ := t
  induction defs with
  | nil => cases hd
  | cons first older ih =>
    have hne (hknown : contains ⟨older⟩ b = true) : (first.name == b) = false := by
      refine beq_false_of_ne ?_
      rintro rfl
      cases h.2.1.symm.trans hknown
    rw [get?_cons] at hd
    rw [findIdx_cons, findIdx_cons]
    split at hd
    · next hname =>
      cases hd
      rw [hne ((h.1 f hf).2.2 b hb), beq_iff_eq.mpr hname]
      exact Nat.succ_pos _
    · next hname =>
      rw [hne (knows_of_mem h.2.2.2 (mem_of_find?_eq_some hd) hf b hb), beq_false_of_ne hname]
      exact Nat.succ_lt_succ (ih h.2.2.2 hd)

theorem findIdx_lt_of_transGen (h : StructsOk t.defs) (hpart : Relation.TransGen t.HasPart a b) :
    t.defs.findIdx (fun d => d.name == a) < t.defs.findIdx fun d => d.name == b := by
  induction hpart with
  | single hpart => exact findIdx_lt h hpart
  | tail _ hpart ih => exact ih.trans (findIdx_lt h hpart)

theorem structsOk_of_append {newer : List StructDef} (h : StructsOk (newer ++ defs)) : StructsOk defs := by
  induction newer with
  | nil => exact h
  | cons d newer ih => exact ih h.2.2.2

/-! ## Bytes -/

theorem fieldFrom?_of_split (hsizes : ∀ type, 0 ≤ t.sizeOf type) {start : Int} (hstart : 0 ≤ start)
    {before after : List Field} {f : Field} (hnames : ∀ g ∈ before, g.name ≠ f.name)
    (hsum : start + (before.map fun f => t.sizeOf f.type).sum < 2 ^ 31) :
    t.fieldFrom? f.name (before ++ f :: after) start =
      some (start + (before.map fun f => t.sizeOf f.type).sum, f.type) := by
  induction before generalizing start with
  | nil => simp [fieldFrom?]
  | cons g before ih =>
    have hg := hsizes g.type
    have hrest := sum_sizes_nonneg hsizes before
    rw [map_cons, sum_cons] at hsum ⊢
    rw [cons_append, fieldFrom?, if_neg (hnames g (.head _)), wrap32_of_fits ⟨by omega, by omega⟩,
      ih (by omega) (fun f hf => hnames f (.tail _ hf)) (by omega), Int.add_assoc]

theorem partOf_of_placeOf {a : Analysis} {e : Expr} {part : Part} (h : placeOf a e = some part) :
    ∃ info, a.vars[part.var]? = some info ∧ a.structs.PartOf info.type part.offset part.type := by
  induction e using Expr.inductionOn generalizing part with
  | ident node name =>
    simp only [placeOf, bind_eq_bind, bind_eq_some_iff] at h
    obtain ⟨var, -, info, hinfo, hpart⟩ := h
    cases hpart
    exact ⟨info, hinfo, .whole⟩
  | field node base name ih =>
    simp only [placeOf, bind_eq_bind, bind_eq_some_iff] at h
    obtain ⟨part', hpart', ⟨start, type⟩, hfield, hpart⟩ := h
    obtain ⟨info, hinfo, hroot⟩ := ih hpart'
    cases hpart
    exact ⟨info, hinfo, hroot.field hfield⟩
  | _ => simp [placeOf] at h

structure LaidOut (t : StructTable) : Prop where
  older : ∀ newer d older, t.defs = newer ++ d :: older → contains ⟨older⟩ d.name = false ∧
    ∀ f ∈ d.fields, ∀ name, f.type = .struct name → contains ⟨older⟩ name = true
  acyclic : ∀ name, ¬Relation.TransGen t.HasPart name name
  nonneg : ∀ type, 0 ≤ t.sizeOf type
  size : ∀ name d, t.get? name = some d → t.sizeOf (.struct name) = (d.fields.map fun f => t.sizeOf f.type).sum
  offset : ∀ name d, t.get? name = some d → ∀ before f after, d.fields = before ++ f :: after →
    t.field? (.struct name) f.name = some ((before.map fun f => t.sizeOf f.type).sum, f.type)
  bounds : ∀ root offset type, t.PartOf root offset type → 0 ≤ offset ∧ offset + t.sizeOf type ≤ t.sizeOf root
  cells : ∀ root offset type, t.PartOf root offset type → ∃ before after,
    cellsIn t.defs root = before ++ cellsIn t.defs type ++ after ∧ cellSize * before.length = offset

theorem Fitting.laidOut (hfit : t.Fitting) (h : Check.Ordered t) : t.LaidOut where
  older := by
    intro newer d older hdefs
    obtain ⟨hfields, hnew, -⟩ := structsOk_of_append (hdefs ▸ h.1)
    exact ⟨hnew, fun f hf => (hfields f hf).2.2⟩
  acyclic name hself := Nat.lt_irrefl _ (findIdx_lt_of_transGen h.1 hself)
  nonneg := hfit.nonneg h.1
  size _ _ := hfit.size_eq h.1
  offset := by
    intro name d hd before f after hsplit
    have hmem : d ∈ t.defs := mem_of_find?_eq_some hd
    have hsum := hfit d hmem
    have hnames := h.2 d hmem
    have hafter := sum_sizes_nonneg (hfit.nonneg h.1) (f :: after)
    rw [hsplit, map_append, sum_append] at hsum
    rw [hsplit, map_append, nodup_append] at hnames
    have hne (g : Field) (hg : g ∈ before) : g.name ≠ f.name :=
      hnames.2.2 _ (List.mem_map_of_mem hg) _ (.head _)
    have hfound : t.fieldFrom? f.name (before ++ f :: after) 0 = _ :=
      fieldFrom?_of_split (hfit.nonneg h.1) (Int.le_refl 0) hne (by omega)
    simp only [field?, hd]
    rwa [zero_add, ← hsplit] at hfound
  bounds _ _ _ hpart := hpart.bounds hfit h.1
  cells _ _ _ hpart := hpart.cells hfit h.1

end StructTable

def structsOf (engine : EngineTable) (program : Program) : StructTable :=
  (Check.collectTypes engine [] program {}).2.analysis.structs

/-- **Layout of structures**, with or without errors in the program. Where no size wraps, a place is a part of
its variable, and storage is reserved cell by cell. -/
theorem structs_laid_out {engine : EngineTable} {program : Program} (h : (structsOf engine program).Fitting) :
    (structsOf engine program).LaidOut ∧ ∀ c : GenContext, c.analysis.structs = structsOf engine program →
      (∀ e s part s', place c e s = .ok (some part, s') → ∃ info, c.analysis.vars[part.var]? = some info ∧
        c.analysis.structs.PartOf info.type part.offset part.type) ∧
      ∀ type, type.isStorable = true → (∀ name, type = .struct name → c.analysis.structs.contains name = true) →
        ∀ s, reserve c type s = .ok (reserveOps (cellsIn c.analysis.structs.defs type),
            { s with depth := s.depth + c.analysis.sizeOf type }) ∨
          ∃ bytes, reserve c type s = .error (.overflow bytes) := by
  have hordered : Check.Ordered (structsOf engine program) := Check.collectTypes_spec ⟨trivial, by simp⟩
  refine ⟨h.laidOut hordered, fun c hc => ⟨fun e s part s' hplace => ?_, fun type hstorable hknown s => ?_⟩⟩
  · exact StructTable.partOf_of_placeOf (Ends.of_ok (yields_place e s) hplace).1.symm
  · rw [← hc] at h hordered
    have hmeets : Ends Overflows (reserve c type) s fun ops s' => ops = reserveOps (cellsIn c.analysis.structs.defs type) ∧
        s' = { s with depth := s.depth + c.analysis.sizeOf type } :=
      pushes_reserveIn hordered.1 hstorable hknown s _ fun _ =>
        ⟨rfl, by rw [Analysis.sizeOf, h.size_cellsIn hordered.1]⟩
    refine hmeets.ok_or_overflow.imp_left ?_
    rintro ⟨ops, s', hrun, rfl, rfl⟩
    exact hrun

theorem StructTable.eq_of_defs {t u : StructTable} (h : t.defs = u.defs) : t = u := by
  cases t
  cases u
  exact congrArg StructTable.mk h

/-- A structure in a structure, and an assignment to a field of the inner one. -/
def Sample.layered : Program :=
  (parse [] ((lex ("struct p{int a;vector v;};struct q{string s;struct p p;int z;};" ++
    "void main(){struct q x;x.p.v=[1.0];}") 0).filterMap Except.toOption)).program

theorem Sample.layered_facts :
    (structsOf engine layered).Fitting ∧
    (Accepted.context engine layered).analysis.structs.defs = (structsOf engine layered).defs ∧
    layered.exprs[1]?.map (fun e => (place (Accepted.context engine layered) e {}).toOption.map fun r =>
      r.1.map fun part => (part.offset, part.type)) = some (some (some (8, .vector))) ∧
    (Accepted.context engine layered).analysis.structs.contains "q" = true ∧
    cellsIn (Accepted.context engine layered).analysis.structs.defs (.struct "q") =
      [TypeByte.string, TypeByte.int, TypeByte.float, TypeByte.float, TypeByte.float, TypeByte.int] ∧
    (Accepted.context engine layered).analysis.sizeOf (.struct "q") = 24 ∧
    (reserve (Accepted.context engine layered) (.struct "q") {}).isOk = true := by
  unfold StructTable.Fitting
  decide +kernel

/-- The vector lies 8 bytes into the variable, and the 24 bytes of the variable are reserved. -/
theorem structs_laid_out_nested : (structsOf Sample.engine Sample.layered).LaidOut ∧
    (∃ e part s', place (Accepted.context Sample.engine Sample.layered) e {} = .ok (some part, s') ∧
      ∃ info, (Accepted.context Sample.engine Sample.layered).analysis.vars[part.var]? = some info ∧
        (structsOf Sample.engine Sample.layered).PartOf info.type 8 .vector) ∧
    reserve (Accepted.context Sample.engine Sample.layered) (.struct "q") {} =
      .ok (reserveOps [TypeByte.string, TypeByte.int, TypeByte.float, TypeByte.float, TypeByte.float,
        TypeByte.int], { depth := 0 + 24 }) := by
  obtain ⟨hfit, hdefs, hread, hknown, hcells, hsize, hok⟩ := Sample.layered_facts
  obtain ⟨hlaid, hcontext⟩ := structs_laid_out hfit
  have hstructs := StructTable.eq_of_defs hdefs
  obtain ⟨hplaces, hreserves⟩ := hcontext _ hstructs
  -- from here on only the facts about the context count
  generalize Accepted.context Sample.engine Sample.layered = c at *
  generalize structsOf Sample.engine Sample.layered = t at *
  refine ⟨hlaid, ?_, ?_⟩
  · obtain ⟨e, -, he⟩ := map_eq_some_iff.mp hread
    obtain ⟨⟨found, s'⟩, hrun, hfound⟩ := map_eq_some_iff.mp he
    obtain ⟨part, rfl, hpart⟩ := map_eq_some_iff.mp hfound
    obtain ⟨hoffset, htype⟩ := Prod.mk.inj hpart
    have hplace := toOption_eq_some hrun
    obtain ⟨info, hinfo, hpartOf⟩ := hplaces e _ part s' hplace
    rw [hoffset, htype] at hpartOf
    exact ⟨e, part, s', hplace, info, hinfo, hstructs ▸ hpartOf⟩
  · have hreserve := hreserves (.struct "q") rfl (by rintro name ⟨⟩; exact hknown) {}
    rw [hcells, hsize] at hreserve
    rcases hreserve with hrun | ⟨bytes, herror⟩
    · exact hrun
    · rw [herror] at hok
      cases hok

end Nwscript
