import Nwscript.Proofs.Engine.Table

/-! # Engine types of signatures

The types of a prototype are looked up in the slots as they stand where it is read. A definition line
below it may give the slot another name, or the name to a slot before it, and then the name of the type
leads elsewhere. -/

open List hiding Vector
open Option

namespace Nwscript

def Item.typeSlot? : Item → Option (Nat × String)
  | .defineLine _ name value =>
    let lead := engineStructureLead.toList
    if lead.isPrefixOf name.toList then
      (Text.numeralBelow? 10 engineTypeSlots (name.toList.drop lead.length)).map fun slot => (slot, value)
    else none
  | _ => none

/-- The name that the last of the definition lines for a slot gives to it. -/
def slotName? (items : List Item) (slot : Nat) : Option String :=
  (items.filterMap Item.typeSlot?).reverse.lookup slot

namespace EngineTable

variable {t t' : EngineTable} {slot : UInt8} {name : String} {items : List Item} {item : Item}

def nameAt (t : EngineTable) (slot : Nat) : Option String := t.types[slot]?.join

theorem findFinIdx?_eq_some_iff {α : Type} {n : Nat} {xs : Vector α n} {p : α → Bool} {i : Fin n} :
    xs.findFinIdx? p = some i ↔ p xs[i] = true ∧ ∀ j < i, ¬p xs[j] = true := by
  obtain ⟨xs, rfl⟩ := xs
  simp [Vector.findFinIdx?, Array.findFinIdx?_eq_some_iff]

theorem type?_eq_iff : t.type? name = some (.engine slot name) ↔
    t.nameAt slot.toNat = some name ∧ ∀ i < slot.toNat, t.nameAt i ≠ some name := by
  have hat (i : Fin engineTypeSlots) : t.nameAt i = t.types[i] := by
    rw [nameAt, Vector.getElem?_eq_getElem i.isLt]
    rfl
  have hsmall (i : Fin engineTypeSlots) : i.val.toUInt8.toNat = i.val := by
    have hlt : i.val < 10 := i.isLt
    rw [Nat.toUInt8_eq, UInt8.toNat_ofNat', Nat.mod_eq_of_lt (by omega)]
  constructor
  · intro h
    obtain ⟨found, hslot, heq⟩ := map_eq_some_iff.mp h
    obtain ⟨rfl, -⟩ := Ty.engine.inj heq
    obtain ⟨i, hi, rfl⟩ := map_eq_some_iff.mp hslot
    obtain ⟨hfirst, hbefore⟩ := findFinIdx?_eq_some_iff.mp hi
    rw [hsmall, hat]
    refine ⟨by simpa using hfirst, fun j hj => ?_⟩
    rw [hat ⟨j, by omega⟩]
    simpa using hbefore ⟨j, by omega⟩ hj
  · rintro ⟨hfirst, hbefore⟩
    have hlt : slot.toNat < engineTypeSlots := by
      by_contra hge
      rw [nameAt, Vector.getElem?_eq_none (by omega)] at hfirst
      cases hfirst
    have hfound : (t.types.findFinIdx? fun slot => slot == some name) = some ⟨slot.toNat, hlt⟩ := by
      refine findFinIdx?_eq_some_iff.mpr ⟨?_, fun j hj => ?_⟩
      · rw [← hat, hfirst, beq_self_eq_true]
      · rw [← hat, beq_iff_eq]
        exact hbefore j.val hj
    rw [type?, slot?, hfound]
    simp

/-! ## Definition lines -/

theorem addDefinition_eq {pos : Pos} {key value : String} (h : t.addDefinition pos key value = .ok t') :
    t' = { t with types := (Item.defineLine pos key value).typeSlot?.elim t.types fun p =>
      t.types.setIfInBounds p.1 (some p.2) } := by
  simp only [addDefinition] at h
  simp only [Item.typeSlot?]
  split at h
  · next hlead =>
    rw [if_pos hlead]
    split at h
    · next hindex =>
      rw [hindex]
      exact (Except.ok.inj h).symm
    · cases h
  · next hlead =>
    rw [if_neg hlead]
    exact (Except.ok.inj h).symm

theorem nameAt_addItem (h : t.addItem item = .ok t') {i : Nat} (hi : i < engineTypeSlots) :
    t'.nameAt i = (slotName? [item] i).or (t.nameAt i) := by
  cases item with
  | defineLine pos key value =>
    rw [addDefinition_eq h, slotName?, filterMap_cons]
    cases (Item.defineLine pos key value).typeSlot? with
    | none => rfl
    | some p =>
      obtain ⟨index, given⟩ := p
      simp only [elim_some, nameAt, Vector.getElem?_setIfInBounds, filterMap_nil,
        reverse_singleton, lookup_cons, lookup_nil]
      by_cases heq : index = i
      · subst heq
        simp [hi]
      · have hne : (i == index) = false := beq_false_of_ne (Ne.symm heq)
        simp [heq, hne]
  | «global» decl =>
    obtain ⟨type, -, hvars⟩ := bind_eq_ok.mp h
    rw [nameAt, (addConstants_ok hvars).2.2.1]
    rfl
  | prototype decl =>
    obtain ⟨-, -, f, -, -, -, -, rfl⟩ := addFunction_ok h
    rfl
  | «function» decl body => cases h
  | struct decl => cases h
  | includeLine pos name => cases h

theorem nameAt_addItems (h : items.foldlM addItem t = .ok t') {i : Nat} (hi : i < engineTypeSlots) :
    t'.nameAt i = (slotName? items i).or (t.nameAt i) := by
  induction items generalizing t with
  | nil =>
    cases h
    rfl
  | cons item items ih =>
    rw [foldlM_cons] at h
    obtain ⟨t₁, hfirst, hrest⟩ := bind_eq_ok.mp h
    have hsplit : slotName? (item :: items) i = (slotName? items i).or (slotName? [item] i) := by
      rw [slotName?, ← singleton_append, filterMap_append, reverse_append, lookup_append]
      rfl
    rw [ih hrest, nameAt_addItem hfirst hi, hsplit, Option.or_assoc]

/-! ## Prototypes -/

def Names (t : EngineTable) (f : EngineFunction) : Prop :=
  ∀ slot name, Ty.engine slot name ∈ f.ret :: f.params.map EngineParam.type →
    t.type? name = some (.engine slot name)

theorem type?_of_resolve {pos : Pos} {spec : TypeSpec} (h : t.resolve pos spec = .ok (.engine slot name)) :
    t.type? name = some (.engine slot name) := by
  unfold resolve at h
  split at h
  case h_8 key =>
    split at h
    · next hkey =>
      cases h
      obtain ⟨found, -, heq⟩ := map_eq_some_iff.mp hkey
      obtain ⟨-, rfl⟩ := Ty.engine.inj heq
      exact hkey
    · cases h
  all_goals cases h

theorem names_of_addFunction {decl : FunctionDecl} (h : t.addFunction decl = .ok t') :
    ∃ f, f.name = decl.name ∧ t'.functions = t.functions.push f ∧ t'.Names f := by
  obtain ⟨-, -, f, hdeclares, hret, hparams, -, rfl⟩ := addFunction_ok h
  refine ⟨f, hdeclares.1, rfl, fun slot name hmem => ?_⟩
  rcases mem_cons.mp hmem with heq | hmem
  · exact type?_of_resolve (t := t) (hret.trans (congrArg _ heq.symm))
  · obtain ⟨q, hq, htype⟩ := List.mem_map.mp hmem
    obtain ⟨p, -, hp⟩ := exists_of_forall₂ (forall₂_of_mapM (fun _ _ => id) hparams) hq
    obtain ⟨type, hresolve, hrest⟩ := bind_eq_ok.mp hp
    obtain ⟨default, -, heq⟩ := bind_eq_ok.mp hrest
    cases heq
    exact type?_of_resolve (t := t) (hresolve.trans (congrArg _ htype))

/-- A function behind the items stood there before, or its prototype is one of them and met the types of
its signature. -/
theorem prototype_of_addItems (h : items.foldlM addItem t = .ok t') {f : EngineFunction}
    (hf : f ∈ t'.functions) : f ∈ t.functions ∨ ∃ before decl after t₁,
      items = before ++ .prototype decl :: after ∧ f.name = decl.name ∧ Names t₁ f ∧
        after.foldlM addItem t₁ = .ok t' := by
  induction items generalizing t with
  | nil =>
    cases h
    exact .inl hf
  | cons item items ih =>
    rw [foldlM_cons] at h
    obtain ⟨t₁, hfirst, hrest⟩ := bind_eq_ok.mp h
    rcases ih hrest with hold | ⟨before, decl, after, t₂, rfl, hfound⟩
    · cases item with
      | defineLine pos key value =>
        obtain rfl := addDefinition_eq hfirst
        exact .inl hold
      | «global» decl =>
        obtain ⟨type, -, hvars⟩ := bind_eq_ok.mp hfirst
        exact .inl ((addConstants_ok hvars).1 ▸ hold)
      | prototype decl =>
        obtain ⟨g, hname, hfunctions, hnames⟩ := names_of_addFunction hfirst
        rw [hfunctions, Array.mem_push] at hold
        rcases hold with hold | rfl
        · exact .inl hold
        · exact .inr ⟨[], decl, items, t₁, rfl, hname, hnames, hrest⟩
      | «function» decl body => cases hfirst
      | struct decl => cases hfirst
      | includeLine pos name => cases hfirst
    · exact .inr ⟨item :: before, decl, after, t₂, rfl, hfound⟩

/-- **When the engine types of a signature can be named.** The name of such a type leads to it if and only
if no last definition line below the prototype gives the slot another name, or the name to a slot before
it. -/
theorem signature_named_iff {version source : String} (h : ofSource version source = .ok t) :
    ∃ tokens, scriptTokens source = .ok tokens ∧ ∀ f ∈ t.functions, ∃ before decl after,
      (parse [] tokens).program = before ++ .prototype decl :: after ∧ f.name = decl.name ∧
      ∀ slot name, Ty.engine slot name ∈ f.ret :: f.params.map EngineParam.type →
        (t.type? name = some (.engine slot name) ↔
          (∀ other, slotName? after slot.toNat = some other → other = name) ∧
            ∀ i < slot.toNat, slotName? after i ≠ some name) := by
  obtain ⟨tokens, htokens, hrest⟩ := bind_eq_ok.mp h
  refine ⟨tokens, htokens, fun f hf => ?_⟩
  dsimp only at hrest
  split at hrest
  · cases hrest
  rcases prototype_of_addItems hrest hf with hnone | ⟨before, decl, after, t₁, heq, hname, hnames, hafter⟩
  · exact absurd hnone (by simp)
  refine ⟨before, decl, after, heq, hname, fun slot name hmem => ?_⟩
  have htype := hnames slot name hmem
  obtain ⟨hslot, hbefore⟩ := type?_eq_iff.mp htype
  have hlt : slot.toNat < engineTypeSlots := by
    obtain ⟨found, hfound, hsame⟩ := map_eq_some_iff.mp htype
    obtain ⟨rfl, -⟩ := Ty.engine.inj hsame
    exact slot?_lt hfound
  rw [type?_eq_iff, nameAt_addItems hafter hlt, hslot]
  refine and_congr ?_ (forall₂_congr fun i hi => ?_)
  · cases slotName? after slot.toNat <;> simp
  · rw [nameAt_addItems hafter (by omega)]
    have hne := hbefore i hi
    cases slotName? after i with
    | none => simpa using hne
    | some other => simp

/-- A slot before the one of the signature gets its name later. -/
def displacing : String :=
  "#define ENGINE_STRUCTURE_1 effect\neffect F();\n#define ENGINE_STRUCTURE_0 effect\n"

theorem displaced : ∃ t, ofSource "1" displacing = .ok t ∧
    t.functions = #[⟨0, "F", .engine 1 "effect", []⟩] ∧ t.type? "effect" = some (.engine 0 "effect") := by
  have hread : (ofSource "1" displacing).toOption.map (fun t => (t.functions, t.type? "effect")) =
      some (#[⟨0, "F", .engine 1 "effect", []⟩], some (.engine 0 "effect")) := by decide +kernel
  obtain ⟨t, ht, hfacts⟩ := map_eq_some_iff.mp hread
  obtain ⟨hfunctions, htype⟩ := Prod.mk.inj hfacts
  exact ⟨t, toOption_eq_some ht, hfunctions, htype⟩

/-- The name of `F` is given away below it. -/
theorem signature_named_iff_displaced : ∃ t tokens before decl after, ofSource "1" displacing = .ok t ∧
    scriptTokens displacing = .ok tokens ∧
    (parse [] tokens).program = before ++ .prototype decl :: after ∧ decl.name = "F" ∧
    ¬((∀ other, slotName? after 1 = some other → other = "effect") ∧
      ∀ i < 1, slotName? after i ≠ some "effect") := by
  obtain ⟨t, ht, hfunctions, hother⟩ := displaced
  obtain ⟨tokens, htokens, hnamed⟩ := signature_named_iff ht
  obtain ⟨before, decl, after, hitems, hname, hiff⟩ :=
    hnamed ⟨0, "F", .engine 1 "effect", []⟩ (by simp [hfunctions])
  refine ⟨t, tokens, before, decl, after, ht, htokens, hitems, hname.symm, fun hkept => ?_⟩
  have hthis := (hiff 1 "effect" (by simp)).mpr hkept
  rw [hother] at hthis
  cases hthis

theorem displaced_not_named : ¬∀ t, ofSource "1" displacing = .ok t → ∀ f ∈ t.functions, ∀ slot name,
    Ty.engine slot name ∈ f.ret :: f.params.map EngineParam.type →
      t.type? name = some (.engine slot name) := by
  intro h
  obtain ⟨t, ht, hfunctions, hother⟩ := displaced
  have hnamed := h t ht ⟨0, "F", .engine 1 "effect", []⟩ (by simp [hfunctions]) 1 "effect" (by simp)
  rw [hother] at hnamed
  cases hnamed

end EngineTable
end Nwscript
