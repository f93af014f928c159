import Nwscript.Proofs.Code.Layout

/-! # Parts of values

The cells of a field stand together among those of its structure, and so do those of any part. -/

open List

namespace Nwscript
namespace StructTable

variable {t : StructTable} {root type base : Ty} {name : String} {offset : Int} {fields : List Field}

theorem fieldFrom?_split (hsizes : ∀ type, 0 ≤ t.sizeOf type) {start : Int} (hstart : 0 ≤ start)
    (hsum : start + (fields.map fun f => t.sizeOf f.type).sum < 2 ^ 31)
    (h : t.fieldFrom? name fields start = some (offset, type)) :
    ∃ before f after, fields = before ++ f :: after ∧ f.type = type ∧
      offset = start + (before.map fun f => t.sizeOf f.type).sum := by
  induction fields generalizing start with
  | nil => cases h
  | cons f fields ih =>
    have hf := hsizes f.type
    have hrest := sum_sizes_nonneg hsizes fields
    rw [map_cons, sum_cons] at hsum
    rw [fieldFrom?] at h
    split at h
    · cases h
      exact ⟨[], f, fields, rfl, rfl, by simp⟩
    · rw [wrap32_of_fits ⟨by omega, by omega⟩] at h
      obtain ⟨before, g, after, rfl, rfl, rfl⟩ := ih (by omega) (by omega) h
      refine ⟨f :: before, g, after, rfl, rfl, ?_⟩
      rw [map_cons, sum_cons]
      omega

/-- The cells of a field stand among those of its structure, behind as many as its offset takes up. -/
theorem Fitting.cells_field (hfit : t.Fitting) (h : StructsOk t.defs)
    (hf : t.field? base name = some (offset, type)) : ∃ before after,
      cellsIn t.defs base = before ++ cellsIn t.defs type ++ after ∧ cellSize * before.length = offset := by
  cases base with
  | vector =>
    have hcells : cellsIn t.defs .vector = [TypeByte.float, TypeByte.float, TypeByte.float] := by
      cases t.defs <;> rfl
    have hfloat : cellsIn t.defs .float = [TypeByte.float] := by cases t.defs <;> rfl
    rw [hcells]
    simp only [field?] at hf
    split at hf
    · cases hf
      exact ⟨[], [TypeByte.float, TypeByte.float], by rw [hfloat]; rfl, rfl⟩
    · split at hf
      · cases hf
        exact ⟨[TypeByte.float], [TypeByte.float], by rw [hfloat]; rfl, rfl⟩
      · obtain ⟨-, rfl, rfl⟩ := by simpa using hf
        exact ⟨[TypeByte.float, TypeByte.float], [], by rw [hfloat]; rfl, rfl⟩
  | struct s =>
    simp only [field?] at hf
    split at hf
    · next d hd =>
      have hlt := hfit d (mem_of_find?_eq_some hd)
      obtain ⟨before, f, after, hsplit, rfl, rfl⟩ :=
        fieldFrom?_split (hfit.nonneg h) (Int.le_refl 0) (by omega) hf
      refine ⟨before.flatMap fun f => cellsIn t.defs f.type, after.flatMap fun f => cellsIn t.defs f.type,
        by simp [cellsIn_struct h hd, hsplit], ?_⟩
      rw [← sum_map_length, zero_add]
      simp only [hfit.size_cellsIn h]
    · cases hf
  | _ => cases hf

/-- A value of a type has a part at an offset: the whole, or a field of a part. -/
inductive PartOf (t : StructTable) (root : Ty) : Int → Ty → Prop
  | whole : PartOf t root 0 root
  | field {offset start : Int} {type fieldType : Ty} {name : String} : PartOf t root offset type →
      t.field? type name = some (start, fieldType) → PartOf t root (offset + start) fieldType

theorem PartOf.cells (hfit : t.Fitting) (h : StructsOk t.defs) (hpart : t.PartOf root offset type) :
    ∃ before after, cellsIn t.defs root = before ++ cellsIn t.defs type ++ after ∧
      cellSize * before.length = offset := by
  induction hpart with
  | whole => exact ⟨[], [], by simp, rfl⟩
  | field _ hfield ih =>
    obtain ⟨before, after, hcells, rfl⟩ := ih
    obtain ⟨inner, rest, hinner, rfl⟩ := hfit.cells_field h hfield
    refine ⟨before ++ inner, rest ++ after, by simp [hcells, hinner], ?_⟩
    rw [length_append, cellSize]
    omega

theorem PartOf.bounds (hfit : t.Fitting) (h : StructsOk t.defs) (hpart : t.PartOf root offset type) :
    0 ≤ offset ∧ offset + t.sizeOf type ≤ t.sizeOf root := by
  obtain ⟨before, after, hcells, rfl⟩ := hpart.cells hfit h
  rw [← hfit.size_cellsIn h, ← hfit.size_cellsIn h, hcells, length_append, length_append, cellSize]
  omega

end StructTable
end Nwscript
