import Nwscript.Proofs.Code.State

/-! # Code of operators and variables

The steps of code generation that need no recursion: operators on operands that the typing rules
allow have an instruction, and variables that are visible have storage. -/

open List Option

namespace Nwscript

variable {type : Ty}

/-- The functions of an engine table stand at their ordinals, and their results have slots. -/
def EngineTable.Ok (t : EngineTable) : Prop :=
  ∀ (i : Nat) f, t.functions[i]? = some f → f.ordinal.toNat = i ∧ f.ret.HasSlot

variable {name : String} {var : VarId} {op : BinOp} {offset : Int} {rhs lhs : Ty}

theorem EngineTable.Ok.functionAt? {t : EngineTable} (h : t.Ok) {f : EngineFunction}
    (hf : t.function? name = some f) : t.functionAt? f.ordinal = some f ∧ f.ret.HasSlot := by
  obtain ⟨ordinal, -, hget⟩ := Option.bind_eq_some_iff.mp hf
  obtain ⟨hord, hslot⟩ := h _ f hget
  exact ⟨by rwa [EngineTable.functionAt?, hord], hslot⟩

/-- What code generation needs to know of the tables it works with. -/
structure GenContext.Ok (c : GenContext) : Prop where
  structs : StructsOk c.analysis.structs.defs
  small : c.analysis.structs.Small
  vars : ∀ (var : VarId) info, c.analysis.vars[var]? = some info → VarOk info
  signatures : ∀ (func : FuncId) f, c.analysis.functions[func]? = some f → SignatureOk c.analysis f
  engine : c.engine.Ok
  /-- A global variable that is no constant has storage. -/
  globals : ∀ var ∈ c.analysis.globals, ∃ info, c.analysis.vars[var]? = some info ∧
    c.analysis.Storable info.type ∧ (info.isConst = false →
      ∃ offset, c.globals.offsets.lookup var = some offset)

theorem GenContext.Ok.isOperand {c : GenContext} (h : c.Ok) (type : Ty) :
    IsOperand (c.analysis.sizeOf type) := h.small.isOperand h.structs type

def Placed (c : GenContext) (visible : List VarId) (locals : List (VarId × Int)) : Prop :=
  ∀ var ∈ visible, ∃ info bottom, c.analysis.vars[var]? = some info ∧
    c.analysis.Storable info.type ∧ locals.lookup var = some bottom

theorem GenContext.Ok.slot {c : GenContext} (h : c.Ok) {visible : List VarId}
    {locals : List (VarId × Int)} (hplaced : Placed c visible locals) {info : VarInfo}
    (hvar : var ∈ visible ∨ var ∈ c.analysis.globals) (hinfo : c.analysis.vars[var]? = some info) :
    c.analysis.Storable info.type ∧
      (info.isConst = false → ∃ slot, Gen.slotOf c locals var = some slot) := by
  rcases hvar with hvar | hvar
  · obtain ⟨info', bottom, hinfo', hstorable, hl⟩ := hplaced var hvar
    cases hinfo.symm.trans hinfo'
    exact ⟨hstorable, fun _ => ⟨.stack bottom, by simp [Gen.slotOf, hl]⟩⟩
  · obtain ⟨info', hinfo', hstorable, hoffset⟩ := h.globals var hvar
    cases hinfo.symm.trans hinfo'
    refine ⟨hstorable, fun hconst => ?_⟩
    obtain ⟨offset, hoff⟩ := hoffset hconst
    cases hl : locals.lookup var with
    | some bottom => exact ⟨.stack bottom, by simp [Gen.slotOf, hl]⟩
    | none => exact ⟨.global offset, by simp [Gen.slotOf, hl, hoff]⟩

namespace Gen

variable {c : GenContext} {s : GenState} {Q : List Op → GenState → Prop}

/-! ## Constants -/

theorem meets_constant {v : Value}
    (hQ : Q (constantOps v) { s with depth := s.depth + c.analysis.sizeOf v.type }) :
    Ends Overflows (constant v) s Q := by
  cases v with
  | vector x y z =>
    simp only [constant, ends_bind, meets_emit, ends_pure]
    intro _ _ _
    have hsum : s.depth + cellSize + cellSize + cellSize = s.depth + 3 * cellSize := by
      simp only [cellSize]
      omega
    have hsize : c.analysis.sizeOf (Value.vector x y z).type = 3 * cellSize := rfl
    simpa [hsum, hsize, constantOps] using hQ
  | _ =>
    simp only [constant, meets_emit]
    exact fun _ => hQ

/-! ## Operators -/

def pairEffect (pair : UInt8) : Int :=
  if pair = PairByte.vectorVector then -3 * cellSize else -cellSize

theorem pairEffect_engine {slot : UInt8} (h : slot.toNat < engineTypeSlots) :
    pairEffect (PairByte.engineBase + slot) = -cellSize := by
  refine if_neg fun heq => ?_
  have hnat := congrArg UInt8.toNat heq
  rw [UInt8.toNat_add] at hnat
  simp only [PairByte.engineBase, PairByte.vectorVector, UInt8.reduceToNat, engineTypeSlots] at hnat h
  omega

def typedEffect (a : Analysis) (lhs rhs type : Ty) : Int :=
  a.sizeOf type - a.sizeOf lhs - a.sizeOf rhs

theorem ofTypes?_same (hslot : type.HasSlot) (hstorable : type.isStorable = true)
    (hvector : type ≠ .vector) (hstruct : ∀ name, type ≠ .struct name) :
    ∃ pair, PairByte.ofTypes? type type = some pair ∧
      pairEffect pair = typedEffect c.analysis type type .int := by
  cases type with
  | engine slot name =>
    exact ⟨PairByte.engineBase + slot, by simp [PairByte.ofTypes?], pairEffect_engine hslot⟩
  | vector => exact absurd rfl hvector
  | struct name => exact absurd rfl (hstruct name)
  | void | action => cases hstorable
  | _ => exact ⟨_, rfl, rfl⟩

theorem ofTypes?_effect (hop : op.isEquality = false) (htype : binaryType? op lhs rhs = some type) :
    ∃ pair, PairByte.ofTypes? lhs rhs = some pair ∧
      pairEffect pair = typedEffect c.analysis lhs rhs type := by
  unfold binaryType? at htype
  rw [hop, if_neg Bool.false_ne_true] at htype
  split at htype
  · cases htype
    exact ⟨_, rfl, rfl⟩
  · split at htype
    · cases htype
      exact ⟨_, rfl, rfl⟩
    · obtain ⟨-, rfl⟩ := by simpa using htype
      exact ⟨_, rfl, rfl⟩
  case h_9 => cases htype
  all_goals
    obtain ⟨-, rfl⟩ := by simpa using htype
    exact ⟨_, rfl, rfl⟩

theorem isEquality_of_comparesBytes (h : comparesBytes op lhs rhs = true) : op.isEquality = true := by
  unfold comparesBytes at h
  split at h
  · cases op <;> first | rfl | cases h
  · cases op <;> first | rfl | cases h
  · cases h

theorem binaryInstr?_effect (hc : c.Ok) (htype : binaryType? op lhs rhs = some type)
    (hslot : lhs.HasSlot) : ∃ i, binaryInstr? c.analysis op lhs rhs = some i ∧
      i.effect? = some (typedEffect c.analysis lhs rhs type) := by
  have hpairs (hbytes : comparesBytes op lhs rhs = false)
      (h : ∃ pair, PairByte.ofTypes? lhs rhs = some pair ∧
        pairEffect pair = typedEffect c.analysis lhs rhs type) :
      ∃ i, binaryInstr? c.analysis op lhs rhs = some i ∧
        i.effect? = some (typedEffect c.analysis lhs rhs type) := by
    obtain ⟨pair, hpair, heffect⟩ := h
    refine ⟨.binary (Opcode.ofBinOp op) pair, ?_, congrArg some heffect⟩
    rw [binaryInstr?, hbytes, if_neg Bool.false_ne_true, hpair]
    rfl
  by_cases hop : op.isEquality = true
  · have hequal := htype
    unfold binaryType? at hequal
    rw [if_pos hop] at hequal
    obtain ⟨⟨rfl, hstorable⟩, rfl⟩ := by simpa using hequal
    by_cases hbytes : comparesBytes op lhs lhs = true
    · refine ⟨_, if_pos hbytes, ?_⟩
      rw [Instr.effect?_compare, (hc.isOperand lhs).toNat_ofInt, typedEffect]
      show some _ = some (cellSize - _ - _)
      congr 1
      omega
    · have hnot : ∀ type, comparesBytes op type type = true → lhs ≠ type := by
        rintro type htrue rfl
        exact hbytes htrue
      have heqs : (op = .eq || op = .ne : Bool) = true := by
        cases op <;> first | rfl | cases hop
      exact hpairs (Bool.eq_false_iff.mpr hbytes)
        (ofTypes?_same hslot hstorable (hnot .vector heqs) fun name => hnot (.struct name) heqs)
  · refine hpairs (Bool.eq_false_iff.mpr fun h => hop (isEquality_of_comparesBytes h)) ?_
    exact ofTypes?_effect (Bool.eq_false_iff.mpr hop) htype

theorem meets_binaryOp (hc : c.Ok) (htype : binaryType? op lhs rhs = some type) (hslot : lhs.HasSlot)
    (hQ : ∀ i, binaryInstr? c.analysis op lhs rhs = some i →
      i.effect? = some (typedEffect c.analysis lhs rhs type) →
      Q [.instr i] { s with depth := s.depth + typedEffect c.analysis lhs rhs type }) :
    Ends Overflows (binaryOp c op lhs rhs) s Q := by
  obtain ⟨i, hi, heffect⟩ := binaryInstr?_effect hc htype hslot
  simp only [binaryOp, hi, orFault, ends_bind, ends_pure, meets_emit, heffect, getD_some]
  exact fun _ => hQ i hi heffect

theorem effect?_unaryInstr (op : UnOp) (type : Ty) : (unaryInstr op type).effect? = some 0 := by
  cases op <;> rfl

/-! ## Variables -/

variable {slot : Slot}

theorem meets_load {size : Int} (hsize : IsOperand size) (hslot : slotOf c s.locals var = some slot)
    (hQ : Addresses c s.locals s.depth var offset slot →
      Q [loadOp c slot s.depth offset size] { s with depth := s.depth + size }) :
    Ends Overflows (load c var offset size) s Q := by
  simp only [load, ends_bind, meets_address hslot, meets_emit, Instr.effect?_copyTop, getD_some,
    hsize.toNat_ofInt]
  exact fun hfits _ => hQ ⟨hslot, hfits⟩

theorem meets_store {size : Int} (hslot : slotOf c s.locals var = some slot)
    (hQ : Addresses c s.locals s.depth var offset slot → Q [storeOp c slot s.depth offset size] s) :
    Ends Overflows (store c var offset size) s Q := by
  simp only [store, ends_bind, meets_address hslot, meets_emit, Instr.effect?_copyDown, getD_some,
    Int.add_zero]
  exact fun hfits _ => hQ ⟨hslot, hfits⟩

theorem meets_stepVar {st : Step} (hslot : slotOf c s.locals var = some slot)
    (hQ : Addresses c s.locals s.depth var 0 slot → Q [stepOp c st slot s.depth] s) :
    Ends Overflows (stepVar c st var) s Q := by
  simp only [stepVar, ends_bind, meets_address hslot, meets_emit, Instr.effect?_step, getD_some,
    Int.add_zero]
  exact fun hfits _ => hQ ⟨hslot, hfits⟩

end Gen

/-! ## Types of expressions -/

theorem Value.hasSlot_type (v : Value) : v.type.HasSlot := by
  cases v <;> trivial

theorem hasSlot_of_binaryType? (h : binaryType? op lhs rhs = some type) : type.HasSlot := by
  unfold binaryType? at h
  split at h
  · obtain ⟨-, rfl⟩ := by simpa using h
    trivial
  · split at h
    · cases h
      trivial
    · split at h
      · cases h
        trivial
      · obtain ⟨-, rfl⟩ := by simpa using h
        trivial
    all_goals first | (obtain ⟨-, rfl⟩ := by simpa using h) | cases h
    all_goals trivial

theorem mem_of_fieldFrom? {t : StructTable} {fields : List Field} {start : Int}
    (h : t.fieldFrom? name fields start = some (offset, type)) : ∃ f ∈ fields, f.type = type := by
  induction fields generalizing start with
  | nil => cases h
  | cons f fields ih =>
    rw [StructTable.fieldFrom?] at h
    split at h
    · obtain ⟨-, rfl⟩ := Prod.mk.inj (Option.some.inj h)
      exact ⟨f, .head _, rfl⟩
    · obtain ⟨g, hg, htype⟩ := ih h
      exact ⟨g, .tail _ hg, htype⟩

theorem StructsOk.hasSlot {defs : List StructDef} (h : StructsOk defs) {d : StructDef} (hd : d ∈ defs)
    {f : Field} (hf : f ∈ d.fields) : f.type.HasSlot := by
  induction defs with
  | nil => cases hd
  | cons d' older ih =>
    obtain ⟨hfields, -, -, hok⟩ := h
    rcases mem_cons.mp hd with rfl | hd
    · exact (hfields f hf).2.1
    · exact ih hok hd

theorem field?_cases {t : StructTable} (h : StructsOk t.defs) {base : Ty}
    (hf : t.field? base name = some (offset, type)) :
    type.HasSlot ∧ (base = .vector ∨ ∃ s, base = .struct s) := by
  cases base with
  | vector =>
    refine ⟨?_, .inl rfl⟩
    simp only [StructTable.field?] at hf
    split at hf
    · cases hf
      trivial
    · split at hf
      · cases hf
        trivial
      · obtain ⟨-, -, rfl⟩ := by simpa using hf
        trivial
  | struct s =>
    refine ⟨?_, .inr ⟨s, rfl⟩⟩
    simp only [StructTable.field?] at hf
    split at hf
    · next d hd =>
      obtain ⟨f, hmem, rfl⟩ := mem_of_fieldFrom? hf
      exact h.hasSlot (mem_of_find?_eq_some hd) hmem
    · cases hf
  | _ => cases hf

section Usable

variable {c : GenContext} {visible : List VarId} {locals : List (VarId × Int)}

variable {e : Expr}

theorem GenContext.Ok.hasSlot (hc : c.Ok) (hplaced : Placed c visible locals)
    (h : Usable c.engine c.analysis visible e) {type : Ty} (htype : c.analysis.typeOf e = some type) :
    type.HasSlot := by
  induction e using Expr.childInduction generalizing type with
  | h e ih =>
    obtain ⟨⟨type', value, hrule, htype', -⟩, hscope, hchildren⟩ := usable_iff.mp h
    cases htype'.symm.trans htype
    have hchild {child : Expr} (hmem : child ∈ e.children) {type : Ty} :=
      @ih child hmem (hchildren child hmem) type
    cases hrule with
    | literal node v => exact v.hasSlot_type
    | «variable» href hinfo => exact (hc.slot hplaced (hscope _ href) hinfo).1.slot
    | engineConstant _ _ => exact Value.hasSlot_type _
    | binary _ _ ht => exact hasSlot_of_binaryType? ht
    | unary ht _ => exact hchild (by simp) ht
    | step _ _ _ => trivial
    | userCall _ hf _ _ _ =>
      rcases (hc.signatures _ _ hf).ret with hret | hret
      · rw [hret]
        trivial
      · exact hret.slot
    | engineCall _ hf _ => exact (hc.engine.functionAt? hf).2
    | assign _ _ ht _ => exact hchild (by simp) ht
    | compound _ _ ht _ _ => exact hchild (by simp) ht
    | field _ hf => exact (field?_cases hc.structs hf).1
    | conditional _ ht _ => exact hchild (by simp) ht

theorem GenContext.Ok.value_type (hc : c.Ok) (h : Usable c.engine c.analysis visible e) {v : Value}
    (hv : c.analysis.valueOf e = some v) : c.analysis.typeOf e = some v.type := by
  obtain ⟨type, -, -, htype, -⟩ := h.ok e e.self_mem_parts
  rw [htype, hasTypedValue h.ok hc.vars v type hv htype]

/-! ## Places -/

namespace Gen

/-- What a place says of the expression: its type, and the variable at its root, which is no constant
unless the expression is one. -/
structure PlaceOk (c : GenContext) (visible : List VarId) (e : Expr) (part : Part) : Prop where
  type : c.analysis.typeOf e = some part.type
  root : c.analysis.refs.get? e.root.id = some part.var
  inScope : part.var ∈ visible ∨ part.var ∈ c.analysis.globals
  known : ∃ info, c.analysis.vars[part.var]? = some info ∧
    (info.value.isSome = true → (c.analysis.valueOf e).isSome = true)

theorem placeOk_ident {node : Node} (h : Usable c.engine c.analysis visible (.ident node name))
    (href : c.analysis.refs.get? node.id = some var) : ∃ info, c.analysis.vars[var]? = some info ∧
      PlaceOk c visible (.ident node name) ⟨var, 0, info.type⟩ := by
  obtain ⟨⟨type, value, hrule, htype, hvalue⟩, hscope, -⟩ := usable_iff.mp h
  cases hrule with
  | «variable» href' hinfo =>
    cases href.symm.trans href'
    exact ⟨_, hinfo, htype, href, hscope _ href, _, hinfo, fun hsome => by rw [hvalue]; exact hsome⟩
  | engineConstant href' _ => rw [href] at href'; cases href'

theorem placeOk_field (hc : c.Ok) {node : Node} {base : Expr}
    (h : Usable c.engine c.analysis visible (.field node base name)) {part : Part}
    (hbase : PlaceOk c visible base part) :
    ∃ offset type, c.analysis.structs.field? part.type name = some (offset, type) ∧
      PlaceOk c visible (.field node base name) ⟨part.var, part.offset + offset, type⟩ := by
  obtain ⟨⟨type, value, hrule, htype, hvalue⟩, -, hchildren⟩ := usable_iff.mp h
  cases hrule with
  | field hbaseType hfield =>
    cases hbase.type.symm.trans hbaseType
    refine ⟨_, _, hfield, htype, hbase.root, hbase.inScope, ?_⟩
    obtain ⟨info, hinfo, hconst⟩ := hbase.known
    refine ⟨info, hinfo, fun hsome => ?_⟩
    -- a constant with fields is a vector
    obtain ⟨v, hv⟩ := isSome_iff_exists.mp (hconst hsome)
    have hvtype := hc.value_type (hchildren base (by simp)) hv
    rw [hbaseType] at hvtype
    rw [hvalue, hv]
    rcases (field?_cases hc.structs hfield).2 with hvec | ⟨s, hs⟩
    · cases v with
      | vector x y z =>
        obtain ⟨-, component, hsome⟩ := StructTable.component_of_field? (hvec ▸ hfield) x y z
        simp [foldedField, hsome]
      | _ => simp_all [Value.type]
    · cases v <;> simp_all [Value.type]

theorem placeOk_of_placeOf (hc : c.Ok) (h : Usable c.engine c.analysis visible e) {part : Part}
    (hpart : placeOf c.analysis e = some part) : PlaceOk c visible e part := by
  induction e using Expr.inductionOn generalizing part with
  | ident node name =>
    simp only [placeOf, bind_eq_bind, bind_eq_some_iff] at hpart
    obtain ⟨var, href, info, hinfo, hpart⟩ := hpart
    obtain ⟨info', hinfo', hplace⟩ := placeOk_ident h href
    cases hinfo.symm.trans hinfo'
    cases hpart
    exact hplace
  | field node base name ih =>
    simp only [placeOf, bind_eq_bind, bind_eq_some_iff] at hpart
    obtain ⟨part', hpart', ⟨offset, type⟩, hfield, hpart⟩ := hpart
    have hbase := ih ((usable_iff.mp h).2.2 base (by simp)) hpart'
    obtain ⟨offset', type', hfield', hplace⟩ := placeOk_field hc h hbase
    cases hfield.symm.trans hfield'
    cases hpart
    exact hplace
  | _ => simp [placeOf] at hpart

theorem meets_place (hc : c.Ok) (h : Usable c.engine c.analysis visible e) {s : GenState}
    {Q : Option Part → GenState → Prop} (hQ : Q (placeOf c.analysis e) s) : Ends Overflows (place c e) s Q := by
  induction e using Expr.inductionOn generalizing Q with
  | ident node name =>
    rw [place]
    cases href : c.analysis.refs.get? node.id with
    | none => simpa [placeOf, href] using hQ
    | some var =>
      obtain ⟨info, hinfo, -⟩ := placeOk_ident h href
      simpa [placeOf, href, hinfo, varInfo, orFault] using hQ
  | field node base name ih =>
    have husable := (usable_iff.mp h).2.2 base (by simp)
    rw [place, ends_bind]
    refine ih husable ?_
    cases hpart : placeOf c.analysis base with
    | none => simpa [placeOf, hpart] using hQ
    | some part =>
      obtain ⟨offset, type, hfield, -⟩ := placeOk_field hc h (placeOk_of_placeOf hc husable hpart)
      simpa [placeOf, hpart, hfield, orFault] using hQ
  | _ => exact hQ

theorem placeOf_isSome (hc : c.Ok) (h : Usable c.engine c.analysis visible e)
    (hident : e.root.isIdent = true) (href : c.analysis.refs.get? e.root.id = some var) :
    ∃ part, placeOf c.analysis e = some part := by
  induction e using Expr.inductionOn with
  | ident node name =>
    obtain ⟨info, hinfo, -⟩ := placeOk_ident h href
    have hnode : c.analysis.refs.get? node.id = some var := href
    exact ⟨⟨var, 0, info.type⟩, by simp [placeOf, hnode, hinfo]⟩
  | field node base name ih =>
    have husable := (usable_iff.mp h).2.2 base (by simp)
    obtain ⟨part, hpart⟩ := ih husable hident href
    obtain ⟨offset, type, hfield, -⟩ := placeOk_field hc h (placeOk_of_placeOf hc husable hpart)
    exact ⟨⟨part.var, part.offset + offset, type⟩, by simp [placeOf, hpart, hfield]⟩
  | _ => cases hident

end Gen
end Usable
end Nwscript
