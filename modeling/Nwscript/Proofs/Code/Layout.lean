import Mathlib
import Nwscript.Proofs.Code.Meets
import Nwscript.Proofs.Typing.Value

/-! # Sizes of types

In a program whose structures are small no size wraps: a structure takes up what its fields do, and
every size can be the operand of an instruction. Reserving a value pushes its cells. -/

open List

namespace Nwscript

variable {type : Ty} {defs : List StructDef} {t : StructTable}

/-- Every structure takes up less than 65536 bytes. -/
def StructTable.Small (t : StructTable) : Prop :=
  ∀ d ∈ t.defs, (d.fields.map fun f => t.sizeOf f.type).sum < 65536

def IsOperand (size : Int) : Prop := 0 ≤ size ∧ size < 65536

theorem IsOperand.toNat_ofInt {size : Int} (h : IsOperand size) :
    ((UInt16.ofInt size).toNat : Int) = size := by
  obtain ⟨hlo, hhi⟩ := h
  have hnat : (UInt16.ofInt size).toNat = (size % 2 ^ 16).toNat % 2 ^ 16 := by simp [UInt16.ofInt]
  omega

theorem wrap32_of_fits {n : Int} (h : Fits n) : wrap32 n = n :=
  Int.bmod_eq_of_le h.1 h.2

namespace StructTable

variable {d : StructDef} {older : List StructDef}

def Knows (defs : List StructDef) (type : Ty) : Prop :=
  ∀ name, type = .struct name → contains ⟨defs⟩ name = true

theorem get?_cons (name : String) :
    get? ⟨d :: older⟩ name = if d.name = name then some d else get? ⟨older⟩ name := by
  unfold get?
  rw [find?_cons]
  by_cases h : d.name = name
  · simp [h]
  · simp [beq_false_of_ne h, h]

theorem get?_cons_of_contains (hnew : contains ⟨older⟩ d.name = false) {name : String}
    (h : contains ⟨older⟩ name = true) : get? ⟨d :: older⟩ name = get? ⟨older⟩ name := by
  rw [get?_cons, if_neg]
  rintro rfl
  cases hnew.symm.trans h

theorem Knows.cons (hnew : contains ⟨older⟩ d.name = false) (h : Knows older type) :
    Knows (d :: older) type := by
  intro name hname
  have hold := h name hname
  rw [contains, get?_cons_of_contains hnew hold]
  exact hold

theorem sizeOf_struct (t : StructTable) (name : String) :
    t.sizeOf (.struct name) = ((t.get? name).map StructDef.size).getD 0 := by
  unfold sizeOf
  dsimp only
  cases t.get? name <;> rfl

theorem sizeOf_cons (hnew : contains ⟨older⟩ d.name = false) (h : Knows older type) :
    sizeOf ⟨d :: older⟩ type = sizeOf ⟨older⟩ type := by
  cases type with
  | struct name => rw [sizeOf_struct, sizeOf_struct, get?_cons_of_contains hnew (h name rfl)]
  | _ => rfl

theorem knows_of_mem (h : StructsOk defs) {d : StructDef} (hd : d ∈ defs)
    {f : Field} (hf : f ∈ d.fields) : Knows defs f.type := by
  induction defs with
  | nil => cases hd
  | cons d' older ih =>
    obtain ⟨hfields, hnew, -, hok⟩ := h
    rcases mem_cons.mp hd with rfl | hd
    · exact Knows.cons hnew (hfields f hf).2.2
    · exact (ih hok hd).cons hnew

theorem sum_sizes_nonneg (hsizes : ∀ type, 0 ≤ t.sizeOf type) (fields : List Field) :
    0 ≤ (fields.map fun f => t.sizeOf f.type).sum :=
  sum_nonneg (by simpa using fun (f : Field) _ => hsizes f.type)

theorem foldl_sizes {fields : List Field} (hsizes : ∀ type, 0 ≤ t.sizeOf type) {start : Int} (hstart : 0 ≤ start)
    (hsum : start + (fields.map fun f => t.sizeOf f.type).sum < 2 ^ 31) :
    fields.foldl (fun size f => wrap32 (size + t.sizeOf f.type)) start =
      start + (fields.map fun f => t.sizeOf f.type).sum := by
  induction fields generalizing start with
  | nil => simp
  | cons f fields ih =>
    have hf := hsizes f.type
    have hrest := sum_sizes_nonneg hsizes fields
    rw [map_cons, sum_cons] at hsum ⊢
    rw [foldl_cons, wrap32_of_fits ⟨by omega, by omega⟩, ih (by omega) (by omega)]
    omega

end StructTable

/-! ## Cells -/

def cellsIn : List StructDef → Ty → List UInt8
  | [], .struct _ => []
  | d :: older, .struct name =>
    if d.name = name then d.fields.flatMap fun f => cellsIn older f.type
    else cellsIn older (.struct name)
  | _, .int => [TypeByte.int]
  | _, .float => [TypeByte.float]
  | _, .string => [TypeByte.string]
  | _, .object => [TypeByte.object]
  | _, .vector => [TypeByte.float, TypeByte.float, TypeByte.float]
  | _, .engine slot _ => [TypeByte.engineBase + slot]
  | _, .void | _, .action => []

def reserveOps (cells : List UInt8) : List Op := cells.map fun type => .instr (.reserve type)

theorem sum_map_length {α β : Type} (f : α → List β) (as : List α) :
    (as.map fun a => cellSize * (f a).length).sum = cellSize * (as.flatMap f).length := by
  induction as with
  | nil => rfl
  | cons a as ih =>
    rw [map_cons, sum_cons, ih, flatMap_cons, length_append]
    simp only [cellSize]
    omega

namespace StructTable

variable {d : StructDef} {older : List StructDef} {name : String}

def Fitting (t : StructTable) : Prop :=
  ∀ d ∈ t.defs, (d.fields.map fun f => t.sizeOf f.type).sum < 2 ^ 31

theorem Fitting.of_cons (h : StructsOk (d :: older)) (hfit : Fitting ⟨d :: older⟩) : Fitting ⟨older⟩ := by
  obtain ⟨-, hnew, -, hok⟩ := h
  intro d' hd'
  have hlt := hfit d' (.tail _ hd')
  rwa [map_congr_left fun f hf => sizeOf_cons hnew (knows_of_mem hok hd' hf)] at hlt

theorem Fitting.size_cellsIn (hfit : t.Fitting) (h : StructsOk t.defs) (type : Ty) :
    cellSize * (cellsIn t.defs type).length = t.sizeOf type := by
  obtain ⟨defs⟩ := t
  induction defs generalizing type with
  | nil => cases type <;> simp [cellsIn, sizeOf, get?, cellSize]
  | cons d older ih =>
    have holder (type : Ty) := ih type (hfit.of_cons h) h.2.2.2
    cases type with
    | struct name =>
      rw [cellsIn, sizeOf_struct, get?_cons]
      split
      · have hlt := hfit d (.head _)
        rw [map_congr_left fun f hf => sizeOf_cons h.2.1 (h.1 f hf).2.2] at hlt
        have hnonneg (type : Ty) : 0 ≤ sizeOf ⟨older⟩ type := by
          rw [← holder, cellSize]
          omega
        rw [Option.map_some, Option.getD_some, h.2.2.1, sizeOfFields,
          foldl_sizes hnonneg (Int.le_refl 0) (by omega), ← sum_map_length, zero_add]
        simp only [holder]
      · rw [holder, sizeOf_struct]
    | _ => simp [cellsIn, sizeOf, cellSize]

theorem Small.fitting (h : t.Small) : t.Fitting := fun d hd => (h d hd).trans (by decide)

theorem Fitting.nonneg (hfit : t.Fitting) (h : StructsOk t.defs) (type : Ty) : 0 ≤ t.sizeOf type := by
  rw [← hfit.size_cellsIn h, cellSize]
  omega

/-- A function of types that follows the table from its newest structure on, and puts together what it
gives for the fields of a structure. -/
structure ByFields {α : Type} (F : List StructDef → Ty → α) (C : List α → α) : Prop where
  struct : ∀ d older name, F (d :: older) (.struct name) =
    if d.name = name then C (d.fields.map fun f => F older f.type) else F older (.struct name)
  other : ∀ d older type, (∀ name, type ≠ .struct name) → F (d :: older) type = F older type

theorem ByFields.cons {α : Type} {F : List StructDef → Ty → α} {C : List α → α} (hF : ByFields F C)
    (hnew : contains ⟨older⟩ d.name = false) (h : Knows older type) :
    F (d :: older) type = F older type := by
  cases type with
  | struct name =>
    rw [hF.struct, if_neg]
    rintro rfl
    cases hnew.symm.trans (h _ rfl)
  | _ => exact hF.other d older _ (by simp)

/-- The recursion along the table is one from a structure to its fields, all in the whole table. -/
theorem ByFields.eq_elim {α : Type} {F : List StructDef → Ty → α} {C : List α → α} (hF : ByFields F C)
    (h : StructsOk t.defs) (name : String) : F t.defs (.struct name) =
      (t.get? name).elim (F [] (.struct name)) fun d => C (d.fields.map fun f => F t.defs f.type) := by
  obtain ⟨defs⟩ := t
  induction defs with
  | nil => rfl
  | cons first older ih =>
    have hfields {fields : List Field} (hknown : ∀ f ∈ fields, Knows older f.type) :
        (fields.map fun f => F older f.type) = fields.map fun f => F (first :: older) f.type :=
      map_congr_left fun f hf => (hF.cons h.2.1 (hknown f hf)).symm
    rw [hF.struct, get?_cons]
    split
    · rw [Option.elim_some, hfields fun f hf => (h.1 f hf).2.2]
    · rw [ih h.2.2.2]
      cases hd : get? ⟨older⟩ name with
      | none => rfl
      | some d =>
        rw [Option.elim_some, Option.elim_some,
          hfields fun f => knows_of_mem h.2.2.2 (mem_of_find?_eq_some hd)]

theorem byFields_cellsIn : ByFields cellsIn flatten where
  struct _ _ _ := rfl
  other _ older type h := by
    cases type with
    | struct name => exact absurd rfl (h name)
    | _ => cases older <;> rfl

theorem cellsIn_struct (h : StructsOk t.defs) (hd : t.get? name = some d) :
    cellsIn t.defs (.struct name) = d.fields.flatMap fun f => cellsIn t.defs f.type := by
  rw [byFields_cellsIn.eq_elim h, hd]
  rfl

theorem Fitting.size_eq (hfit : t.Fitting) (h : StructsOk t.defs) (hd : t.get? name = some d) :
    t.sizeOf (.struct name) = (d.fields.map fun f => t.sizeOf f.type).sum := by
  rw [← hfit.size_cellsIn h, cellsIn_struct h hd, ← sum_map_length]
  simp only [hfit.size_cellsIn h]

theorem Small.isOperand (hsmall : t.Small) (h : StructsOk t.defs) (type : Ty) :
    IsOperand (t.sizeOf type) := by
  refine ⟨hsmall.fitting.nonneg h type, ?_⟩
  cases type with
  | struct name =>
    cases hd : t.get? name with
    | none => simp [sizeOf, hd]
    | some d =>
      rw [hsmall.fitting.size_eq h hd]
      exact hsmall d (mem_of_find?_eq_some hd)
  | _ => simp [sizeOf, cellSize]

end StructTable

namespace Gen

variable {s : GenState} {Q : List Op → GenState → Prop}

def Pushes (g : Gen (List Op)) (cells : List UInt8) : Prop :=
  ∀ (s : GenState) (Q : List Op → GenState → Prop),
    ((Fits s.depth → Fits (s.depth + cellSize * cells.length)) →
      Q (reserveOps cells) { s with depth := s.depth + cellSize * cells.length }) → Ends Overflows g s Q

theorem pushes_nil : Pushes (pure []) [] := by
  intro s Q hQ
  simpa [reserveOps] using hQ

theorem pushes_emit (type : UInt8) : Pushes (emit (.reserve type)) [type] := by
  intro s Q hQ
  rw [meets_emit]
  intro hfits
  simpa [reserveOps] using hQ fun _ => by simpa using hfits

theorem Pushes.append {g g' : Gen (List Op)} {cells cells' : List UInt8} (h : Pushes g cells)
    (h' : Pushes g' cells') : Pushes (do let first ← g; return first ++ (← g')) (cells ++ cells') := by
  intro s Q hQ
  simp only [ends_bind]
  refine h s _ fun hfits => h' _ _ fun hfits' => ?_
  have hsum : s.depth + cellSize * cells.length + cellSize * cells'.length =
      s.depth + cellSize * (cells ++ cells').length := by
    rw [length_append]
    simp only [cellSize]
    omega
  simp only [hsum] at hfits' ⊢
  simpa [reserveOps] using hQ fun hs => hfits' (hfits hs)

theorem pushes_sequence {α : Type} {g : α → Gen (List Op)} {cells : α → List UInt8} {as : List α}
    (h : ∀ a ∈ as, Pushes (g a) (cells a)) : Pushes (sequence (as.map g)) (as.flatMap cells) := by
  induction as with
  | nil => exact pushes_nil
  | cons a as ih =>
    rw [flatMap_cons]
    exact (h a (.head _)).append (ih fun b hb => h b (.tail _ hb))

theorem pushes_reserveCells {otherwise : Gen (List Op)}
    (hstorable : type.isStorable = true) (hstruct : ∀ name, type ≠ .struct name) :
    Pushes (reserveCells otherwise type) (cellsIn defs type) := by
  have hfloat := pushes_emit TypeByte.float
  cases type with
  | struct name => exact absurd rfl (hstruct name)
  | void | action => cases hstorable
  | vector =>
    have hcells : cellsIn defs .vector =
        [TypeByte.float] ++ [TypeByte.float] ++ [TypeByte.float] := by
      cases defs <;> rfl
    rw [hcells]
    simpa only [reserveCells, bind_assoc, pure_bind] using (hfloat.append hfloat).append hfloat
  | _ => cases defs <;> exact pushes_emit _

theorem pushes_reserveIn (h : StructsOk defs)
    (hstorable : type.isStorable = true) (hknown : StructTable.Knows defs type) :
    Pushes (reserveIn defs type) (cellsIn defs type) := by
  induction defs generalizing type with
  | nil =>
    cases type with
    | struct name => simpa [StructTable.contains, StructTable.get?] using hknown name rfl
    | _ => exact pushes_reserveCells hstorable (by simp)
  | cons d older ih =>
    cases type with
    | struct name =>
      have hmem := hknown name rfl
      rw [StructTable.contains, StructTable.get?_cons] at hmem
      rw [cellsIn, reserveIn]
      by_cases hname : d.name = name
      · rw [if_pos hname, if_pos hname]
        exact pushes_sequence fun f hf => ih h.2.2.2 (h.1 f hf).1 (h.1 f hf).2.2
      · rw [if_neg hname] at hmem
        rw [if_neg hname, if_neg hname]
        refine ih h.2.2.2 rfl fun other hother => ?_
        obtain rfl := Ty.struct.inj hother
        exact hmem
    | _ => exact pushes_reserveCells hstorable (by simp)

theorem byFields_reserveIn : StructTable.ByFields reserveIn sequence where
  struct _ _ _ := rfl
  other _ older type h := by
    cases type with
    | struct name => exact absurd rfl (h name)
    | _ => cases older <;> rfl

/-- The storage of a structure is that of its fields, which are looked up in the whole table like it. -/
theorem reserve_struct {c : GenContext} (h : StructsOk c.analysis.structs.defs) (name : String) :
    reserve c (.struct name) = (c.analysis.structs.get? name).elim (throw (.unknownStruct name)) fun d =>
      sequence (d.fields.map fun f => reserve c f.type) :=
  byFields_reserveIn.eq_elim h name

end Gen
end Nwscript
