import Nwscript.Proofs.Object.Link

/-! # Tables of engine functions

A table that was read from a definition script has the prototypes of the script, in their order, and
nothing else: the place of a prototype among them is the ordinal of its function, and a name and an
ordinal lead to the same function. The constants have the types they were declared with, and engine types
the slots that the bytes of instructions have room for. -/

open List Option

namespace Nwscript

/-! ## What a script declares -/

def Item.prototype? : Item → Option FunctionDecl
  | .prototype decl => some decl
  | _ => none

def Item.typedVars : Item → List (TypeSpec × Declarator)
  | .global decl => decl.vars.map fun var => (decl.type, var)
  | _ => []

/-- The type that a script writes so. An engine type has one of the slots. -/
def TypeSpec.Denotes : TypeSpec → Ty → Prop
  | .void, type => type = .void
  | .int, type => type = .int
  | .float, type => type = .float
  | .string, type => type = .string
  | .object, type => type = .object
  | .vector, type => type = .vector
  | .action, type => type = .action
  | .engine name, type => ∃ slot : UInt8, slot.toNat < engineTypeSlots ∧ type = .engine slot name
  | .struct _, _ => False

def Param.Declares (p : Param) (q : EngineParam) : Prop :=
  q.name = p.name ∧ p.type.Denotes q.type ∧ q.default.isSome = p.default.isSome

def FunctionDecl.Declares (decl : FunctionDecl) (f : EngineFunction) : Prop :=
  f.name = decl.name ∧ decl.ret.Denotes f.ret ∧ List.Forall₂ Param.Declares decl.params f.params

def DeclaresConstant (declared : TypeSpec × Declarator) (c : String × Value) : Prop :=
  c.1 = declared.2.name ∧ declared.1.Denotes c.2.type

namespace EngineTable

variable {t t' : EngineTable}

structure Holds (items : List Item) (t : EngineTable) : Prop where
  functions : List.Forall₂ FunctionDecl.Declares (items.filterMap Item.prototype?) t.functions.toList
  ordinals : ∀ (i : Nat) f, t.functions[i]? = some f → f.ordinal.toNat = i
  names : (t.functions.toList.map EngineFunction.name).Nodup
  /-- The names lead to the places of the functions. -/
  byName : t.byName = (t.functions.toList.map fun f => (f.name, f.ordinal)).reverse
  size : t.functions.size ≤ 65536
  constants : List.Forall₂ DeclaresConstant (items.flatMap Item.typedVars) t.constants.reverse

/-! ## Types -/

theorem slot?_lt {name : String} {slot : UInt8} (h : t.slot? name = some slot) :
    slot.toNat < engineTypeSlots := by
  obtain ⟨i, -, rfl⟩ := map_eq_some_iff.mp h
  have hlt : i.val < 10 := i.isLt
  rw [Nat.toUInt8_eq, UInt8.toNat_ofNat', Nat.mod_eq_of_lt (by omega)]
  exact i.isLt

theorem denotes_of_resolve {pos : Pos} {spec : TypeSpec} {type : Ty}
    (h : t.resolve pos spec = .ok type) : spec.Denotes type := by
  unfold resolve at h
  split at h
  case h_8 name =>
    split at h
    · next hfound =>
      cases h
      obtain ⟨slot, hslot, rfl⟩ := map_eq_some_iff.mp hfound
      exact ⟨slot, slot?_lt hslot, rfl⟩
    · cases h
  case h_9 => cases h
  all_goals exact (Except.ok.inj h).symm

theorem hasSlot_of_denotes {spec : TypeSpec} {type : Ty} (h : spec.Denotes type) : type.HasSlot := by
  cases spec with
  | engine name =>
    obtain ⟨slot, hlt, rfl⟩ := h
    exact hlt
  | struct name => exact h.elim
  | _ =>
    obtain rfl := h
    trivial

/-! ## Functions -/

theorem forall₂_of_mapM {α β ε : Type} {R : α → β → Prop} {f : α → Except ε β}
    (hf : ∀ a b, f a = .ok b → R a b) {as : List α} {bs : List β} (h : as.mapM f = .ok bs) :
    List.Forall₂ R as bs := by
  induction as generalizing bs with
  | nil =>
    cases h
    exact .nil
  | cons a as ih =>
    rw [mapM_cons] at h
    obtain ⟨b, hb, hrest⟩ := bind_eq_ok.mp h
    obtain ⟨bs', hbs, heq⟩ := bind_eq_ok.mp hrest
    cases heq
    exact .cons (hf a b hb) (ih hbs)

theorem exists_of_forall₂ {α β : Type} {R : α → β → Prop} {as : List α} {bs : List β} {b : β}
    (h : List.Forall₂ R as bs) (hb : b ∈ bs) : ∃ a ∈ as, R a b := by
  induction h with
  | nil => cases hb
  | cons hr _ ih =>
    rcases mem_cons.mp hb with rfl | hb
    · exact ⟨_, .head _, hr⟩
    · obtain ⟨a, ha, hr⟩ := ih hb
      exact ⟨a, .tail _ ha, hr⟩

theorem declares_of_param {p : Param} {q : EngineParam} (h : t.param p = .ok q) : p.Declares q := by
  obtain ⟨type, htype, hrest⟩ := bind_eq_ok.mp h
  obtain ⟨default, hdefault, heq⟩ := bind_eq_ok.mp hrest
  cases heq
  refine ⟨rfl, denotes_of_resolve htype, ?_⟩
  cases hd : p.default with
  | none =>
    rw [hd] at hdefault
    cases hdefault
    rfl
  | some e =>
    rw [hd] at hdefault
    obtain ⟨v, -, hv⟩ := bind_eq_ok.mp hdefault
    cases hv
    rfl

theorem addFunction_ok {decl : FunctionDecl} (h : t.addFunction decl = .ok t') :
    t.byName.lookup decl.name = none ∧ t.functions.size < 65536 ∧ ∃ f, decl.Declares f ∧
      t.resolve decl.pos decl.ret = .ok f.ret ∧ decl.params.mapM t.param = .ok f.params ∧
      f.ordinal = t.functions.size.toUInt16 ∧ t' = { t with
        functions := t.functions.push f
        byName := (f.name, f.ordinal) :: t.byName } := by
  have hnew : (t.byName.lookup decl.name).isSome = false := by
    refine Bool.eq_false_iff.mpr fun hfound => ?_
    simp [addFunction, hfound, throw, throwThe, MonadExceptOf.throw, bind, Except.bind] at h
  have hsize : ¬65535 < t.functions.size := by
    intro hlt
    simp [addFunction, hnew, hlt, throw, throwThe, MonadExceptOf.throw, bind, Except.bind] at h
  simp only [addFunction, hnew, hsize, if_false, Bool.false_eq_true] at h
  obtain ⟨ret, hret, hrest⟩ := bind_eq_ok.mp h
  obtain ⟨params, hparams, heq⟩ := bind_eq_ok.mp hrest
  exact ⟨isNone_iff_eq_none.mp (isSome_eq_false_iff.mp hnew), by omega, _,
    ⟨rfl, denotes_of_resolve hret, forall₂_of_mapM (fun _ _ => declares_of_param) hparams⟩, hret,
    hparams, rfl, (Except.ok.inj heq).symm⟩

/-! ## Constants -/

theorem addConstant_ok {type : Ty} {var : Declarator} (h : addConstant type t var = .ok t') :
    ∃ value : Value, value.type = type ∧ t' = { t with constants := (var.name, value) :: t.constants } := by
  unfold addConstant at h
  split at h
  · cases h
  · obtain ⟨value, -, hrest⟩ := bind_eq_ok.mp h
    by_cases htype : value.type = type
    · rw [if_neg (not_not.mpr htype)] at hrest
      exact ⟨value, htype, (Except.ok.inj hrest).symm⟩
    · rw [if_pos htype] at hrest
      cases hrest

theorem addConstants_ok {type : Ty} {vars : List Declarator}
    (h : vars.foldlM (addConstant type) t = .ok t') : t'.functions = t.functions ∧
      t'.byName = t.byName ∧ t'.types = t.types ∧ ∃ added, t'.constants = added.reverse ++ t.constants ∧
        List.Forall₂ (fun var c => c.1 = var.name ∧ Value.type c.2 = type) vars added := by
  induction vars generalizing t with
  | nil =>
    cases h
    exact ⟨rfl, rfl, rfl, [], rfl, .nil⟩
  | cons var vars ih =>
    rw [foldlM_cons] at h
    obtain ⟨t₁, hfirst, hrest⟩ := bind_eq_ok.mp h
    obtain ⟨value, htype, rfl⟩ := addConstant_ok hfirst
    obtain ⟨hfunctions, hbyName, htypes, added, hconstants, hadded⟩ := ih hrest
    refine ⟨hfunctions, hbyName, htypes, (var.name, value) :: added, ?_, .cons ⟨rfl, htype⟩ hadded⟩
    rw [hconstants, reverse_cons, append_assoc]
    rfl

/-! ## Items -/

theorem Holds.quiet {items : List Item} {item : Item} (h : Holds items t) (hnone : item.prototype? = none)
    (hnil : item.typedVars = []) (hfunctions : t'.functions = t.functions)
    (hbyName : t'.byName = t.byName) (hconstants : t'.constants = t.constants) :
    Holds (items ++ [item]) t' := by
  obtain ⟨functions, ordinals, names, byName, size, constants⟩ := h
  refine ⟨?_, by rwa [hfunctions], by rwa [hfunctions], by rwa [hfunctions, hbyName],
    by rwa [hfunctions], ?_⟩
  · simpa [hnone, hfunctions] using functions
  · simpa [hnil, hconstants] using constants

theorem Holds.addItem {items : List Item} {item : Item} (h : Holds items t)
    (hadd : t.addItem item = .ok t') : Holds (items ++ [item]) t' := by
  cases item with
  | defineLine pos name value =>
    simp only [EngineTable.addItem, addDefinition] at hadd
    split at hadd
    · split at hadd
      · cases hadd
        exact h.quiet rfl rfl rfl rfl rfl
      · cases hadd
    · cases hadd
      exact h.quiet rfl rfl rfl rfl rfl
  | «global» decl =>
    obtain ⟨type, htype, hvars⟩ := bind_eq_ok.mp hadd
    obtain ⟨hfunctions, hbyName, -, added, hconstants, hadded⟩ := addConstants_ok hvars
    obtain ⟨functions, ordinals, names, byName, size, constants⟩ := h
    refine ⟨?_, by rwa [hfunctions], by rwa [hfunctions], by rwa [hfunctions, hbyName],
      by rwa [hfunctions], ?_⟩
    · have hnone : (items ++ [Item.global decl]).filterMap Item.prototype? =
          items.filterMap Item.prototype? := by
        rw [filterMap_append]
        exact append_nil _
      rwa [hnone, hfunctions]
    · rw [flatMap_append, hconstants, reverse_append, reverse_reverse, flatMap_singleton]
      refine rel_append constants ?_
      refine forall₂_map_left_iff.mpr (hadded.imp fun var c hc => ⟨hc.1, ?_⟩)
      rw [hc.2]
      exact denotes_of_resolve htype
  | prototype decl =>
    obtain ⟨hnew, hsize, f, hdeclares, -, -, hordinal, rfl⟩ := addFunction_ok hadd
    obtain ⟨functions, ordinals, names, byName, size, constants⟩ := h
    rw [byName, lookup_eq_none, map_reverse, List.map_map, mem_reverse] at hnew
    refine ⟨?_, fun i g hg => ?_, ?_, ?_, ?_, ?_⟩
    · rw [filterMap_append, Array.toList_push]
      exact rel_append functions (.cons hdeclares .nil)
    · simp only [Array.getElem?_push] at hg
      split at hg
      · next hi =>
        cases hg
        rw [hi, hordinal, Nat.toUInt16_eq, UInt16.toNat_ofNat']
        exact Nat.mod_eq_of_lt hsize
      · exact ordinals i g hg
    · rw [Array.toList_push, map_append, map_singleton, hdeclares.1]
      exact nodup_append.mpr ⟨names, nodup_singleton _, fun x hx y hy heq =>
        hnew (mem_singleton.mp hy ▸ heq ▸ hx)⟩
    · rw [byName, Array.toList_push, map_append, reverse_append]
      rfl
    · rw [Array.size_push]
      exact hsize
    · simpa [Item.typedVars] using constants
  | «function» decl body => cases hadd
  | struct decl => cases hadd
  | includeLine pos name => cases hadd

theorem Holds.addItems {items more : List Item} (h : Holds items t)
    (hadd : more.foldlM EngineTable.addItem t = .ok t') : Holds (items ++ more) t' := by
  induction more generalizing items t with
  | nil =>
    cases hadd
    rwa [append_nil]
  | cons item more ih =>
    rw [foldlM_cons] at hadd
    obtain ⟨t₁, hfirst, hrest⟩ := bind_eq_ok.mp hadd
    have hmore := ih (h.addItem hfirst) hrest
    rwa [append_assoc] at hmore

theorem holds_of_ofSource {version source : String} (h : ofSource version source = .ok t) :
    ∃ tokens, scriptTokens source = .ok tokens ∧ Holds (parse [] tokens).program t := by
  obtain ⟨tokens, htokens, hrest⟩ := bind_eq_ok.mp h
  refine ⟨tokens, htokens, ?_⟩
  dsimp only at hrest
  split at hrest
  · cases hrest
  · have hempty : Holds [] { version, checksum := Text.checksum (Text.utf8 source) } :=
      ⟨.nil, fun i f hf => (by simp at hf), .nil, rfl, Nat.zero_le _, .nil⟩
    exact hempty.addItems hrest

/-! ## Lookups -/

section Lookups

variable {items : List Item} {f : EngineFunction}

theorem Holds.functionAt?_ordinal (h : Holds items t) (hf : f ∈ t.functions) :
    t.functionAt? f.ordinal = some f := by
  obtain ⟨i, hi, rfl⟩ := Array.mem_iff_getElem.mp hf
  have hget : t.functions[i]? = some t.functions[i] := Array.getElem?_eq_getElem hi
  rw [functionAt?, h.ordinals i _ hget, hget]

theorem Holds.lookup_byName (h : Holds items t) {name : String} {ordinal : UInt16} :
    t.byName.lookup name = some ordinal ↔ ∃ f ∈ t.functions, f.name = name ∧ f.ordinal = ordinal := by
  rw [h.byName, lookup_eq_some_of_nodup]
  · simp
  · rw [map_reverse, List.map_map, nodup_reverse]
    exact h.names

theorem Holds.function?_name (h : Holds items t) (hf : f ∈ t.functions) : t.function? f.name = some f := by
  rw [function?, h.lookup_byName.mpr ⟨f, hf, rfl, rfl⟩]
  exact h.functionAt?_ordinal hf

theorem Holds.of_function? (h : Holds items t) {name : String} (hf : t.function? name = some f) :
    f.name = name ∧ f ∈ t.functions := by
  obtain ⟨ordinal, hordinal, hat⟩ := bind_eq_some_iff.mp hf
  obtain ⟨g, hg, rfl, rfl⟩ := h.lookup_byName.mp hordinal
  obtain rfl := Option.some.inj ((h.functionAt?_ordinal hg).symm.trans hat)
  exact ⟨rfl, hg⟩

end Lookups

/-! ## Bytes of engine types -/

def namedBytes : List UInt8 :=
  [TypeByte.void, TypeByte.copy, TypeByte.int, TypeByte.float, TypeByte.string, TypeByte.object,
    PairByte.intInt, PairByte.floatFloat, PairByte.objectObject, PairByte.stringString,
    PairByte.structStruct, PairByte.intFloat, PairByte.floatInt, PairByte.vectorVector,
    PairByte.vectorFloat, PairByte.floatVector]

/-- The bytes of an engine type and of a pair of it are those of no other type. -/
structure OwnBytes (slot : UInt8) : Prop where
  lt : slot.toNat < engineTypeSlots
  named : TypeByte.engineBase + slot ∉ namedBytes ∧ PairByte.engineBase + slot ∉ namedBytes
  apart : ∀ other : UInt8, other.toNat < engineTypeSlots →
    TypeByte.engineBase + slot ≠ PairByte.engineBase + other ∧ (other ≠ slot →
      TypeByte.engineBase + slot ≠ TypeByte.engineBase + other ∧
        PairByte.engineBase + slot ≠ PairByte.engineBase + other)

theorem ownBytes_of_lt {slot : UInt8} (h : slot.toNat < engineTypeSlots) : OwnBytes slot := by
  have hslots : ∀ i : Fin engineTypeSlots,
      TypeByte.engineBase + .ofNat i ∉ namedBytes ∧ PairByte.engineBase + .ofNat i ∉ namedBytes := by decide
  have hpairs : ∀ i j : Fin engineTypeSlots,
      TypeByte.engineBase + .ofNat i ≠ PairByte.engineBase + .ofNat j := by decide
  have hslot (s : UInt8) : UInt8.ofNat s.toNat = s := UInt8.ofNat_toNat
  refine ⟨h, by simpa [hslot] using hslots ⟨slot.toNat, h⟩, fun other hother => ⟨?_, fun hne => ?_⟩⟩
  · simpa [hslot] using hpairs ⟨slot.toNat, h⟩ ⟨other.toNat, hother⟩
  · exact ⟨fun heq => hne (UInt8.add_right_inj _ |>.mp heq).symm,
      fun heq => hne (UInt8.add_right_inj _ |>.mp heq).symm⟩

/-- **The ordinals of a table are the places of the prototypes.** -/
theorem ordinals_of_ofSource {version source : String} (h : ofSource version source = .ok t) :
    ∃ tokens, scriptTokens source = .ok tokens ∧
      List.Forall₂ FunctionDecl.Declares ((parse [] tokens).program.filterMap Item.prototype?)
        t.functions.toList ∧ (∀ (i : Nat) f, t.functions[i]? = some f → f.ordinal.toNat = i) ∧
      (t.functions.toList.map EngineFunction.name).Nodup ∧
      (∀ name f, t.function? name = some f → f.name = name ∧ t.functionAt? f.ordinal = some f) ∧
      (∀ ordinal f, t.functionAt? ordinal = some f → f.ordinal = ordinal ∧ t.function? f.name = some f) ∧
      t.functions.size ≤ 65536 ∧
      List.Forall₂ DeclaresConstant ((parse [] tokens).program.flatMap Item.typedVars) t.constants.reverse ∧
      (∀ name slot, t.slot? name = some slot → OwnBytes slot) ∧ ∀ f ∈ t.functions, ∀ slot name,
        Ty.engine slot name ∈ f.ret :: f.params.map EngineParam.type → OwnBytes slot := by
  obtain ⟨tokens, htokens, hholds⟩ := holds_of_ofSource h
  refine ⟨tokens, htokens, hholds.functions, hholds.ordinals, hholds.names, fun name f hf => ?_,
    fun ordinal f hf => ?_, hholds.size, hholds.constants, fun name slot hslot => ?_,
    fun f hf slot name hmem => ?_⟩
  · obtain ⟨hname, hmem⟩ := hholds.of_function? hf
    exact ⟨hname, hholds.functionAt?_ordinal hmem⟩
  · exact ⟨UInt16.toNat_inj.mp (hholds.ordinals _ f hf),
      hholds.function?_name (Array.mem_of_getElem? hf)⟩
  · exact ownBytes_of_lt (slot?_lt hslot)
  · obtain ⟨decl, -, -, hret, hparams⟩ := exists_of_forall₂ hholds.functions (Array.mem_toList_iff.mpr hf)
    have hslots : ∀ type ∈ f.ret :: f.params.map EngineParam.type, type.HasSlot := by
      refine forall_mem_cons.mpr ⟨hasSlot_of_denotes hret, fun type htype => ?_⟩
      obtain ⟨q, hq, rfl⟩ := List.mem_map.mp htype
      obtain ⟨p, -, -, hp, -⟩ := exists_of_forall₂ hparams hq
      exact hasSlot_of_denotes hp
    exact ownBytes_of_lt (hslots _ hmem)

/-- A script that declares an engine type, two constants and two functions. -/
def several : String :=
  "#define ENGINE_STRUCTURE_0 effect\nint K = 5;\neffect F(int a = 2);\nfloat P = 1.5;\nvoid G(effect e);\n"

theorem ordinals_of_ofSource_several : ∃ t, ofSource "1" several = .ok t ∧
    (∃ f, t.functionAt? 0 = some f ∧ f.name = "F" ∧ t.function? "F" = some f ∧
      f.ret = .engine 0 "effect" ∧ OwnBytes 0) ∧
    (∃ g, t.functionAt? 1 = some g ∧ g.name = "G" ∧ t.function? "G" = some g) ∧
    t.constants.reverse.map Prod.fst = ["K", "P"] := by
  have hread : (ofSource "1" several).toOption.map (fun t => (t.functions.map fun f => (f.name, f.ret),
      t.constants.reverse.map Prod.fst)) =
        some (#[("F", .engine 0 "effect"), ("G", .void)], ["K", "P"]) := by decide +kernel
  obtain ⟨t, hsome, hfacts⟩ := Option.map_eq_some_iff.mp hread
  obtain ⟨hfunctions, hconstants⟩ := Prod.mk.inj hfacts
  have ht := toOption_eq_some hsome
  obtain ⟨-, -, -, -, -, -, hordinals, -, -, -, hslots⟩ := ordinals_of_ofSource ht
  have hplace (i : Nat) : (t.functions[i]?.map fun f => (f.name, f.ret)) =
      (#[("F", Ty.engine 0 "effect"), ("G", .void)] : Array (String × Ty))[i]? := by
    rw [← hfunctions, Array.getElem?_map]
  obtain ⟨f, hf, hF⟩ := Option.map_eq_some_iff.mp (hplace 0)
  obtain ⟨g, hg, hG⟩ := Option.map_eq_some_iff.mp (hplace 1)
  obtain ⟨hname, hret⟩ := Prod.mk.inj hF
  obtain ⟨hname', -⟩ := Prod.mk.inj hG
  refine ⟨t, ht, ⟨f, hf, hname, hname ▸ (hordinals 0 f hf).2, hret, ?_⟩,
    ⟨g, hg, hname', hname' ▸ (hordinals 1 g hg).2⟩, hconstants⟩
  exact hslots f (Array.mem_of_getElem? hf) 0 "effect" (by simp [hret])

end EngineTable
end Nwscript
