import Mathlib
import Nwscript.Object.Link
import Nwscript.Proofs.Code.State

/-! # Layout of objects

Linking succeeds if and only if every label is marked once where it is used and no string is too long.
Then the layout by sizes is where the bytes are: each line stands at the offset of the sizes before
it, and a jump leads from its own offset to that of its mark. -/

open List

namespace Nwscript

variable {label : Label} {at_ : Nat}

/-! ## Lines -/

def Code.lines (code : Code) : List Op := code.routines.flatMap Routine.ops

def opsSize (ops : List Op) : Nat := (ops.map Op.size).sum

@[simp] theorem opsSize_nil : opsSize [] = 0 := rfl

@[simp] theorem opsSize_cons (op : Op) (ops : List Op) : opsSize (op :: ops) = op.size + opsSize ops := by
  simp [opsSize]

@[simp] theorem opsSize_append (ops ops' : List Op) :
    opsSize (ops ++ ops') = opsSize ops + opsSize ops' := by
  simp [opsSize]

def jumpLabels (ops : List Op) : List Label :=
  ops.filterMap fun
    | .jump _ label => some label
    | _ => none

theorem mem_jumpLabels {ops : List Op} : label ∈ jumpLabels ops ↔ ∃ kind, Op.jump kind label ∈ ops := by
  simp only [jumpLabels, mem_filterMap]
  constructor
  · rintro ⟨op, hop, hlabel⟩
    cases op with
    | jump kind other =>
      cases hlabel
      exact ⟨kind, hop⟩
    | _ => cases hlabel
  · rintro ⟨kind, hop⟩
    exact ⟨_, hop, rfl⟩

/-! ## Offsets of labels -/

def markOffsets : Nat → List Op → LabelOffsets
  | _, [] => []
  | offset, .mark label :: ops => (label, offset) :: markOffsets offset ops
  | offset, op :: ops => markOffsets (offset + op.size) ops

theorem map_fst_markOffsets (offset : Nat) (ops : List Op) :
    (markOffsets offset ops).map Prod.fst = marks ops := by
  induction ops generalizing offset with
  | nil => rfl
  | cons op ops ih =>
    cases op with
    | mark label => simp [markOffsets, ih]
    | _ => simp [markOffsets, ih]

theorem markOffsets_append (offset : Nat) (ops ops' : List Op) : markOffsets offset (ops ++ ops') =
      markOffsets offset ops ++ markOffsets (offset + opsSize ops) ops' := by
  induction ops generalizing offset with
  | nil => rfl
  | cons op ops ih =>
    cases op with
    | mark label => simp [markOffsets, ih, Op.size]
    | _ => simp [markOffsets, ih, Nat.add_assoc]

theorem mem_markOffsets {offset : Nat} {ops : List Op} : (label, at_) ∈ markOffsets offset ops ↔
      ∃ before after, ops = before ++ .mark label :: after ∧ at_ = offset + opsSize before := by
  constructor
  · intro h
    induction ops generalizing offset with
    | nil => cases h
    | cons op ops ih =>
      have hrest (h : (label, at_) ∈ markOffsets (offset + op.size) ops) :
          ∃ before after, op :: ops = before ++ .mark label :: after ∧
            at_ = offset + opsSize before := by
        obtain ⟨before, after, rfl, rfl⟩ := ih h
        exact ⟨op :: before, after, rfl, by simp [Nat.add_assoc]⟩
      cases op with
      | mark other =>
        rcases mem_cons.mp h with heq | h
        · obtain ⟨rfl, rfl⟩ := Prod.mk.inj heq
          exact ⟨[], ops, rfl, by simp⟩
        · exact hrest h
      | _ => exact hrest h
  · rintro ⟨before, after, rfl, rfl⟩
    rw [markOffsets_append]
    exact mem_append_right _ (.head _)

theorem lookup_eq_some_of_nodup {α β : Type} [BEq α] [LawfulBEq α] {labels : List (α × β)} {label : α}
    {at_ : β} (hnodup : (labels.map Prod.fst).Nodup) :
    labels.lookup label = some at_ ↔ (label, at_) ∈ labels := by
  induction labels with
  | nil => simp
  | cons p labels ih =>
    obtain ⟨other, offset⟩ := p
    rw [map_cons, nodup_cons] at hnodup
    rw [lookup_cons]
    by_cases heq : label = other
    · subst heq
      have hnot : (label, at_) ∉ labels := fun hmem =>
        hnodup.1 (mem_map.mpr ⟨_, hmem, rfl⟩)
      simp [hnot, eq_comm]
    · have hne : (label == other) = false := by simpa using heq
      simp [hne, heq, ih hnodup.2]

theorem lookup_eq_none {α β : Type} [BEq α] [LawfulBEq α] {labels : List (α × β)} {label : α} :
    labels.lookup label = none ↔ label ∉ labels.map Prod.fst := by
  rw [lookup_eq_none_iff]
  constructor
  · intro h hmem
    obtain ⟨p, hp, rfl⟩ := mem_map.mp hmem
    simpa using h p hp
  · intro h p hp
    have hne : label ≠ p.1 := fun heq => h (heq ▸ mem_map_of_mem hp)
    simpa using hne

/-! ## Placing -/

theorem placeOps_eq_ok {ops : List Op} {offset : Nat} {labels : LabelOffsets}
    {placed : Nat × LabelOffsets} : placeOps ops offset labels = .ok placed ↔
      (marks ops).Nodup ∧ (∀ label ∈ marks ops, label ∉ labels.map Prod.fst) ∧
        placed = (offset + opsSize ops, (markOffsets offset ops).reverse ++ labels) := by
  induction ops generalizing offset labels with
  | nil => simp [placeOps, markOffsets, eq_comm]
  | cons op ops ih =>
    cases op with
    | mark label =>
      rw [placeOps]
      cases hl : labels.lookup label with
      | some at_ =>
        have hmem : label ∈ labels.map Prod.fst := by
          by_contra hnot
          rw [lookup_eq_none.mpr hnot] at hl
          cases hl
        constructor
        · intro h
          cases h
        · rintro ⟨-, hfree, -⟩
          exact absurd hmem (hfree label (by simp))
      | none =>
        have hfree := lookup_eq_none.mp hl
        rw [ih]
        simp only [marks_mark, nodup_cons, map_cons, mem_cons, markOffsets,
          reverse_cons, append_assoc, singleton_append, opsSize_cons, Op.size,
          Nat.zero_add]
        constructor
        · rintro ⟨hnodup, hout, hplaced⟩
          refine ⟨⟨fun hmem => hout label hmem (.inl rfl), hnodup⟩, ?_, hplaced⟩
          rintro other (rfl | hmem)
          · exact hfree
          · exact fun h => hout other hmem (.inr h)
        · rintro ⟨⟨hnew, hnodup⟩, hout, hplaced⟩
          refine ⟨hnodup, ?_, hplaced⟩
          rintro other hmem (rfl | h)
          · exact hnew hmem
          · exact hout other (.inr hmem) h
    | _ =>
      rw [placeOps]
      · simp [ih, markOffsets, Nat.add_assoc]
      · rintro label ⟨⟩

def routineInfos : Nat → List Routine → List RoutineInfo
  | _, [] => []
  | offset, r :: rs => ⟨r.name, offset, opsSize r.ops⟩ :: routineInfos (offset + opsSize r.ops) rs

theorem bind_eq_ok {ε α β : Type} {x : Except ε α} {f : α → Except ε β} {b : β} :
    (x >>= f) = .ok b ↔ ∃ a, x = .ok a ∧ f a = .ok b := by
  cases x with
  | ok a => exact ⟨fun h => ⟨a, rfl, h⟩, by rintro ⟨a, ⟨⟩, h⟩; exact h⟩
  | error e => exact ⟨fun h => (by cases h), by rintro ⟨a, ⟨⟩, h⟩⟩

theorem placeRoutines_eq_ok {rs : List Routine} {offset : Nat} {labels : LabelOffsets} {layout : Layout} :
    placeRoutines rs offset labels = .ok layout ↔ (marks (rs.flatMap Routine.ops)).Nodup ∧
        (∀ label ∈ marks (rs.flatMap Routine.ops), label ∉ labels.map Prod.fst) ∧
        layout = ⟨routineInfos offset rs, (markOffsets offset (rs.flatMap Routine.ops)).reverse ++ labels,
          offset + opsSize (rs.flatMap Routine.ops)⟩ := by
  induction rs generalizing offset labels layout with
  | nil => simp [placeRoutines, routineInfos, markOffsets, eq_comm]
  | cons r rs ih =>
    have hkeys : ((markOffsets offset r.ops).reverse ++ labels).map Prod.fst =
        (marks r.ops).reverse ++ labels.map Prod.fst := by
      rw [map_append, map_reverse, map_fst_markOffsets]
    simp only [placeRoutines, bind_eq_ok, placeOps_eq_ok, flatMap_cons, marks_append,
      nodup_append, markOffsets_append, opsSize_append, reverse_append, append_assoc,
      routineInfos]
    constructor
    · rintro ⟨-, ⟨hnodup, hfree, rfl⟩, layout', hlayout, hreturn⟩
      obtain ⟨hnodup', hfree', rfl⟩ := ih.mp hlayout
      rw [hkeys] at hfree'
      refine ⟨⟨hnodup, hnodup', ?_⟩, ?_, ?_⟩
      · rintro label hl _ hl' rfl
        exact hfree' label hl' (by simp [hl])
      · intro label hl
        rcases mem_append.mp hl with hl | hl
        · exact hfree label hl
        · exact fun hmem => hfree' label hl (by simp [hmem])
      · cases hreturn
        simp [Nat.add_assoc]
    · rintro ⟨⟨hnodup, hnodup', hapart⟩, hfree, rfl⟩
      refine ⟨_, ⟨hnodup, fun label hl => hfree label (by simp [hl]), rfl⟩, _,
        ih.mpr ⟨hnodup', ?_, rfl⟩, ?_⟩
      · intro label hl
        rw [hkeys, mem_append, mem_reverse]
        rintro (hmem | hmem)
        · exact hapart label hmem label hl rfl
        · exact hfree label (by simp [hl]) hmem
      · simp [pure, Except.pure, Nat.add_assoc]

def Contiguous : Nat → List RoutineInfo → Nat → Prop
  | start, [], stop => start = stop
  | start, r :: rs, stop => r.offset = start ∧ Contiguous (start + r.size) rs stop

theorem contiguous_routineInfos (rs : List Routine) (offset : Nat) :
    Contiguous offset (routineInfos offset rs) (offset + opsSize (rs.flatMap Routine.ops)) := by
  induction rs generalizing offset with
  | nil => rfl
  | cons r rs ih =>
    refine ⟨rfl, ?_⟩
    rw [flatMap_cons, opsSize_append, ← Nat.add_assoc]
    exact ih _

/-! ## Bytes of words -/

def bigEndianValue (bytes : Bytes) : Nat := bytes.foldl (fun n b => n * 256 + b.toNat) 0

/-- The signed 32-bit number that bytes stand for, the highest first. -/
def signedValue (bytes : Bytes) : Int := Int.bmod (bigEndianValue bytes) (2 ^ 32)

theorem bigEndianValue_bigEndian32 (n : UInt32) : bigEndianValue (bigEndian32 n) = n.toNat := by
  have hlt := n.toNat_lt
  simp only [bigEndianValue, bigEndian32, foldl_cons, foldl_nil, UInt32.toNat_toUInt8,
    UInt32.toNat_shiftRight, Nat.shiftRight_eq_div_pow]
  simp only [UInt32.reduceToNat, Nat.reduceMod, Nat.reducePow] at *
  omega

theorem signedValue_signed32 (n : Int32) : signedValue (signed32 n) = n.toInt := by
  unfold signedValue signed32
  rw [bigEndianValue_bigEndian32]
  exact (BitVec.toInt_eq_toNat_bmod n.toBitVec).symm

/-! ## Encoding -/

def StringsFit (ops : List Op) : Prop :=
  ∀ bytes, Op.instr (.const (.string bytes)) ∈ ops → bytes.length ≤ 65535

theorem length_encodeInstr {i : Instr} {bytes : Bytes} (h : encodeInstr i = .ok bytes) :
    bytes.length = i.size := by
  cases i with
  | const c =>
    cases c with
    | string text =>
      simp only [encodeInstr, encodeConstant] at h
      split at h
      · cases h
        simp [Instr.size, bigEndian16]
        omega
      · cases h
    | _ =>
      cases h
      rfl
  | _ =>
    cases h
    rfl

theorem encodeInstr_isOk {i : Instr} (h : ∀ bytes, i = .const (.string bytes) → bytes.length ≤ 65535) :
    ∃ bytes, encodeInstr i = .ok bytes := by
  cases i with
  | const c =>
    cases c with
    | string text =>
      have hlen := h text rfl
      simp only [encodeInstr, encodeConstant]
      rw [if_pos (by omega)]
      exact ⟨_, rfl⟩
    | _ => exact ⟨_, rfl⟩
  | _ => exact ⟨_, rfl⟩

theorem length_le_of_encodeInstr {text bytes : Bytes}
    (h : encodeInstr (.const (.string text)) = .ok bytes) : text.length ≤ 65535 := by
  simp only [encodeInstr, encodeConstant] at h
  split at h
  · next hlt => omega
  · cases h

section Encoding

variable {labels : LabelOffsets} {offset : Nat} {op : Op} {ops : List Op} {bytes body : Bytes}

theorem encodeOp_jump {kind : JumpKind} :
    encodeOp labels offset (.jump kind label) = .ok bytes ↔ ∃ target, labels.lookup label = some target ∧
      bytes = encodeJump kind (.ofInt ((target : Int) - offset)) := by
  rw [encodeOp, bind_eq_ok]
  unfold labelOffset
  cases labels.lookup label with
  | none => simp
  | some target => simp [pure, Except.pure, eq_comm]

theorem length_encodeOp (h : encodeOp labels offset op = .ok bytes) : bytes.length = op.size := by
  cases op with
  | instr i => exact length_encodeInstr h
  | jump kind label =>
    obtain ⟨target, -, rfl⟩ := encodeOp_jump.mp h
    rfl
  | mark label =>
    cases h
    rfl

theorem encodeOps_cons : encodeOps labels (op :: ops) offset = .ok body ↔
    ∃ first rest, encodeOp labels offset op = .ok first ∧
      encodeOps labels ops (offset + op.size) = .ok rest ∧ body = first ++ rest := by
  simp only [encodeOps, bind_eq_ok, pure, Except.pure, Except.ok.injEq]
  constructor
  · rintro ⟨first, hfirst, rest, hrest, rfl⟩
    exact ⟨first, rest, hfirst, length_encodeOp hfirst ▸ hrest, rfl⟩
  · rintro ⟨first, rest, hfirst, hrest, rfl⟩
    exact ⟨first, hfirst, rest, length_encodeOp hfirst ▸ hrest, rfl⟩

theorem encodeOps_isOk : (∃ body, encodeOps labels ops offset = .ok body) ↔
    (∀ label ∈ jumpLabels ops, label ∈ labels.map Prod.fst) ∧ StringsFit ops := by
  induction ops generalizing offset with
  | nil => simp [encodeOps, jumpLabels, StringsFit]
  | cons op ops ih =>
    have hcons : (∃ body, encodeOps labels (op :: ops) offset = .ok body) ↔
        (∃ first, encodeOp labels offset op = .ok first) ∧
          ∃ rest, encodeOps labels ops (offset + op.size) = .ok rest := by
      simp only [encodeOps_cons]
      constructor
      · rintro ⟨_, first, rest, hfirst, hrest, rfl⟩
        exact ⟨⟨first, hfirst⟩, rest, hrest⟩
      · rintro ⟨⟨first, hfirst⟩, rest, hrest⟩
        exact ⟨_, first, rest, hfirst, hrest, rfl⟩
    rw [hcons, ih]
    cases op with
    | instr i =>
      have hi : (∃ first, encodeOp labels offset (.instr i) = .ok first) ↔
          ∀ bytes, i = .const (.string bytes) → bytes.length ≤ 65535 := by
        refine ⟨?_, encodeInstr_isOk⟩
        rintro ⟨first, hfirst⟩ bytes rfl
        exact length_le_of_encodeInstr hfirst
      rw [hi]
      simp only [StringsFit, mem_cons, Op.instr.injEq, jumpLabels, filterMap_cons]
      grind
    | jump kind label =>
      have hjump : (∃ first, encodeOp labels offset (.jump kind label) = .ok first) ↔
          label ∈ labels.map Prod.fst := by
        simp only [encodeOp_jump]
        constructor
        · rintro ⟨_, target, hl, -⟩
          by_contra hnot
          rw [lookup_eq_none.mpr hnot] at hl
          cases hl
        · intro hmem
          cases hl : labels.lookup label with
          | none => exact absurd hmem (lookup_eq_none.mp hl)
          | some target => exact ⟨_, target, rfl, rfl⟩
      rw [hjump]
      simp only [StringsFit, mem_cons, jumpLabels, filterMap_cons]
      grind
    | mark label =>
      simp [encodeOp, StringsFit, jumpLabels]

theorem length_encodeOps (h : encodeOps labels ops offset = .ok body) : body.length = opsSize ops := by
  induction ops generalizing offset body with
  | nil =>
    cases h
    rfl
  | cons op ops ih =>
    obtain ⟨first, rest, hfirst, hrest, rfl⟩ := encodeOps_cons.mp h
    rw [length_append, length_encodeOp hfirst, ih hrest, opsSize_cons]

/-- The bytes of a line among others stand behind as many bytes as the lines before it take up. -/
theorem encodeOps_split {before after : List Op}
    (h : encodeOps labels (before ++ op :: after) offset = .ok body) :
    ∃ bytes, encodeOp labels (offset + opsSize before) op = .ok bytes ∧
      (body.drop (opsSize before)).take op.size = bytes := by
  induction before generalizing offset body with
  | nil =>
    obtain ⟨first, rest, hfirst, -, rfl⟩ := encodeOps_cons.mp h
    refine ⟨first, hfirst, ?_⟩
    rw [← length_encodeOp hfirst]
    simp
  | cons b before ih =>
    obtain ⟨first, rest, hfirst, hrest, rfl⟩ := encodeOps_cons.mp h
    obtain ⟨bytes, hbytes, htake⟩ := ih hrest
    refine ⟨bytes, by rwa [opsSize_cons, ← Nat.add_assoc], ?_⟩
    rw [opsSize_cons, ← drop_drop, ← length_encodeOp hfirst, drop_left]
    exact htake

end Encoding

/-! ## Linking -/

def Code.labels (code : Code) : LabelOffsets := (markOffsets headerSize code.lines).reverse

theorem map_fst_labels (code : Code) : code.labels.map Prod.fst = (marks code.lines).reverse := by
  rw [Code.labels, map_reverse, map_fst_markOffsets]

theorem lookup_labels {code : Code} (hnodup : (marks code.lines).Nodup) :
    code.labels.lookup label = some at_ ↔ ∃ before after,
      code.lines = before ++ .mark label :: after ∧ at_ = headerSize + opsSize before := by
  rw [lookup_eq_some_of_nodup (by rw [map_fst_labels, nodup_reverse]; exact hnodup), Code.labels,
    mem_reverse, mem_markOffsets]

theorem mapM_labelOffset {labels : LabelOffsets} {entry : Option Label} {found : Option Nat} :
    entry.mapM (labelOffset labels) = .ok found ↔
      found = (entry.bind fun label => labels.lookup label) ∧ ∀ label ∈ entry, label ∈ labels.map Prod.fst := by
  cases entry with
  | none => simp [pure, Except.pure, eq_comm]
  | some label =>
    have hmapM : (some label).mapM (labelOffset labels) =
        some <$> labelOffset labels label := rfl
    rw [hmapM, labelOffset]
    cases hl : labels.lookup label with
    | none => simp [hl, Functor.map, Except.map, -mem_map, lookup_eq_none.mp hl]
    | some target =>
      have hmem : label ∈ labels.map Prod.fst := by
        by_contra hnot
        rw [lookup_eq_none.mpr hnot] at hl
        cases hl
      simp [hl, Functor.map, Except.map, eq_comm, -mem_map, hmem]

/-- The labels of a unit stand once each, and all that are used stand. -/
structure Labelled (code : Code) : Prop where
  once : (marks code.lines).Nodup
  jumps : ∀ label ∈ jumpLabels code.lines, label ∈ marks code.lines
  entry : ∀ label ∈ code.entry, label ∈ marks code.lines

structure Linkable (code : Code) : Prop extends Labelled code where
  strings : StringsFit code.lines

theorem link_eq_ok {code : Code} {o : Object} : link code = .ok o ↔
    Linkable code ∧ ∃ body, encodeOps code.labels code.lines headerSize = .ok body ∧
      o = { bytes := header (headerSize + opsSize code.lines) ++ body, globalsSize := code.globalsSize
            entryOffset := code.entry.bind fun label => code.labels.lookup label
            routines := routineInfos headerSize code.routines } := by
  have hkeys (label : Label) : label ∈ code.labels.map Prod.fst ↔ label ∈ marks code.lines := by
    rw [map_fst_labels, mem_reverse]
  simp only [link, bind_eq_ok, placeRoutines_eq_ok, mapM_labelOffset, pure, Except.pure,
    Except.ok.injEq]
  constructor
  · rintro ⟨-, ⟨hnodup, -, rfl⟩, body, hbody, -, ⟨rfl, hentry⟩, rfl⟩
    rw [append_nil] at hbody hentry
    obtain ⟨hjumps, hstrings⟩ := encodeOps_isOk.mp ⟨body, hbody⟩
    refine ⟨⟨⟨hnodup, fun label hl => (hkeys label).mp (hjumps label hl),
      fun label hl => (hkeys label).mp (hentry label hl)⟩, hstrings⟩, body, hbody, ?_⟩
    simp [Code.labels, Code.lines]
  · rintro ⟨hlink, body, hbody, rfl⟩
    refine ⟨_, ⟨hlink.once, by simp, rfl⟩, body, ?_, _, ⟨rfl, ?_⟩, ?_⟩
    · rw [append_nil]
      exact hbody
    · rw [append_nil]
      exact fun label hl => (hkeys label).mpr (hlink.entry label hl)
    · simp [Code.labels, Code.lines]

structure Linked (code : Code) (o : Object) : Prop where
  signed : o.bytes.take 9 = signature ++ [sizeMark]
  sizeRecord : bigEndianValue ((o.bytes.drop 9).take 4) = o.bytes.length
  /-- The routines lie one behind the other from the header to the end, in their order. -/
  contiguous : Contiguous headerSize o.routines o.bytes.length
  routines : o.routines.map (fun r => (r.name, r.size)) =
    code.routines.map fun r => (r.name, opsSize r.ops)
  /-- The bytes of a line stand at the offset of the sizes before it, and are as many as its size. -/
  encoded : ∀ before op after, code.lines = before ++ op :: after → ∃ bytes,
    encodeOp code.labels (headerSize + opsSize before) op = .ok bytes ∧ bytes.length = op.size ∧
      (o.bytes.drop (headerSize + opsSize before)).take op.size = bytes
  /-- The operand of a jump is the distance from its own offset to that of the mark. -/
  jumps : ∀ before kind label after, code.lines = before ++ .jump kind label :: after →
    ∀ before' after', code.lines = before' ++ .mark label :: after' →
      ((headerSize + opsSize before : Nat) : Int) +
        signedValue ((o.bytes.drop (headerSize + opsSize before + 2)).take 4) =
          ((headerSize + opsSize before' : Nat) : Int)
  entry : ∀ label, code.entry = some label → ∀ before after,
    code.lines = before ++ .mark label :: after →
      o.entryOffset = some (headerSize + opsSize before)
  noEntry : code.entry = none → o.entryOffset = none

theorem map_routineInfos (rs : List Routine) (offset : Nat) :
    (routineInfos offset rs).map (fun r => (r.name, r.size)) =
      rs.map fun r => (r.name, opsSize r.ops) := by
  induction rs generalizing offset with
  | nil => rfl
  | cons r rs ih => rw [routineInfos, map_cons, ih, map_cons]

theorem length_header (size : Nat) : (header size).length = headerSize := rfl

theorem drop_header (size : Nat) (body : Bytes) : (header size ++ body).drop headerSize = body := rfl

theorem linked_of_link {code : Code} (hsize : headerSize + opsSize code.lines < 2 ^ 31) {o : Object}
    (h : link code = .ok o) : Linked code o := by
  obtain ⟨hlink, body, hbody, rfl⟩ := link_eq_ok.mp h
  have hlength : (header (headerSize + opsSize code.lines) ++ body).length =
      headerSize + opsSize code.lines := by
    rw [length_append, length_header, length_encodeOps hbody]
  have hencoded : ∀ before op after, code.lines = before ++ op :: after → ∃ bytes,
      encodeOp code.labels (headerSize + opsSize before) op = .ok bytes ∧ bytes.length = op.size ∧
        (List.drop (headerSize + opsSize before)
          (header (headerSize + opsSize code.lines) ++ body)).take op.size = bytes := by
    intro before op after hlines
    obtain ⟨bytes, hbytes, htake⟩ := encodeOps_split (hlines ▸ hbody)
    refine ⟨bytes, hbytes, length_encodeOp hbytes, ?_⟩
    rw [← drop_drop, drop_header]
    exact htake
  refine ⟨rfl, ?_, ?_, map_routineInfos .., hencoded, ?_, ?_, ?_⟩
  · have hrecord : ((header (headerSize + opsSize code.lines) ++ body).drop 9).take 4 =
        bigEndian32 (headerSize + opsSize code.lines).toUInt32 := rfl
    rw [hlength, hrecord, bigEndianValue_bigEndian32]
    simp only [Nat.toUInt32_eq, UInt32.toNat_ofNat']
    omega
  · rw [hlength]
    exact contiguous_routineInfos ..
  · intro before kind label after hlines before' after' hmark
    obtain ⟨bytes, hbytes, -, htake⟩ := hencoded before _ after hlines
    obtain ⟨target, htarget, rfl⟩ := encodeOp_jump.mp hbytes
    have htarget' := (lookup_labels hlink.once).mpr ⟨before', after', hmark, rfl⟩
    cases htarget.symm.trans htarget'
    have hoperand : (List.drop (headerSize + opsSize before + 2)
        (header (headerSize + opsSize code.lines) ++ body)).take 4 =
          signed32 (.ofInt (((headerSize + opsSize before' : Nat) : Int) -
            ((headerSize + opsSize before : Nat) : Int))) := by
      rw [← drop_drop, show (4 : Nat) = (Op.jump kind label).size - 2 from rfl, ← drop_take,
        htake]
      rfl
    have hbefore : opsSize before ≤ opsSize code.lines := by simp [hlines]
    have hbefore' : opsSize before' ≤ opsSize code.lines := by simp [hmark]
    rw [hoperand, signedValue_signed32, Fits.toInt_ofInt ⟨by omega, by omega⟩]
    omega
  · intro label hentry before after hlines
    simp only [hentry, Option.bind_some]
    exact (lookup_labels hlink.once).mpr ⟨before, after, hlines, rfl⟩
  · intro hentry
    simp [hentry]

/-- **Linking succeeds exactly if labels are marked once and where they are used, and strings fit.**
The object then has the layout of the sizes, and jumps lead to their marks. -/
theorem link_layout (code : Code) (hsize : headerSize + opsSize code.lines < 2 ^ 31) :
    ((∃ o, link code = .ok o) ↔ (marks code.lines).Nodup ∧
      (∀ label ∈ jumpLabels code.lines, label ∈ marks code.lines) ∧
      (∀ label ∈ code.entry, label ∈ marks code.lines) ∧ StringsFit code.lines) ∧
    ∀ o, link code = .ok o → Linked code o := by
  refine ⟨⟨?_, ?_⟩, fun o => linked_of_link hsize⟩
  · rintro ⟨o, ho⟩
    obtain ⟨hlink, -⟩ := link_eq_ok.mp ho
    exact ⟨hlink.once, hlink.jumps, hlink.entry, hlink.strings⟩
  · rintro ⟨honce, hjumps, hentry, hstrings⟩
    have hkeys : ∀ label ∈ jumpLabels code.lines, label ∈ code.labels.map Prod.fst := by
      intro label hl
      rw [map_fst_labels, mem_reverse]
      exact hjumps label hl
    obtain ⟨body, hbody⟩ := encodeOps_isOk.mpr ⟨hkeys, hstrings⟩
    exact ⟨_, link_eq_ok.mpr ⟨⟨⟨honce, hjumps, hentry⟩, hstrings⟩, body, hbody, rfl⟩⟩

def Sample.code : Code where
  routines := [⟨"a", 0, [.mark 0, .jump .call 1, .instr .ret]⟩,
    ⟨"b", 1, [.mark 1, .mark 2, .instr (.const (.string [0x61])), .jump .ifZero 3, .jump .always 2,
      .mark 3, .instr (.binary Opcode.add PairByte.intInt), .instr .ret]⟩]
  globalsSize := 0
  entry := some 1

theorem link_layout_sample : headerSize + opsSize Sample.code.lines < 2 ^ 31 ∧
    ∃ o, link Sample.code = .ok o ∧ Linked Sample.code o := by
  have hsize : headerSize + opsSize Sample.code.lines < 2 ^ 31 := by decide
  have hstrings : StringsFit Sample.code.lines := by
    intro bytes hbytes
    obtain rfl : bytes = [0x61] := by simpa [Sample.code, Code.lines] using hbytes
    decide
  obtain ⟨o, ho⟩ := (link_layout Sample.code hsize).1.mpr ⟨by decide, by decide, by decide, hstrings⟩
  exact ⟨hsize, o, ho, (link_layout Sample.code hsize).2 o ho⟩

/-! ## Faults -/

theorem encodeOps_error {ops : List Op} {labels : LabelOffsets} {offset : Nat} {fault : LinkFault}
    (hlabels : ∀ label ∈ jumpLabels ops, label ∈ labels.map Prod.fst)
    (h : encodeOps labels ops offset = .error fault) :
    ∃ bytes, .instr (.const (.string bytes)) ∈ ops ∧ maxStringLength < bytes.length ∧
      fault = .stringTooLong bytes.length := by
  induction ops generalizing offset with
  | nil => cases h
  | cons op ops ih =>
    have hrest : ∀ label ∈ jumpLabels ops, label ∈ labels.map Prod.fst := by
      intro label hl
      obtain ⟨kind, hmem⟩ := mem_jumpLabels.mp hl
      exact hlabels label (mem_jumpLabels.mpr ⟨kind, .tail _ hmem⟩)
    cases hfirst : encodeOp labels offset op with
    | ok first =>
      cases hlater : encodeOps labels ops (offset + op.size) with
      | ok rest =>
        rw [encodeOps_cons.mpr ⟨first, rest, hfirst, hlater, rfl⟩] at h
        cases h
      | error fault' =>
        rw [← length_encodeOp hfirst] at hlater
        simp only [encodeOps, hfirst, bind, Except.bind, hlater] at h
        obtain rfl := Except.error.inj h
        obtain ⟨bytes, hmem, hlong, rfl⟩ := ih hrest hlater
        exact ⟨bytes, .tail _ hmem, hlong, rfl⟩
    | error fault' =>
      simp only [encodeOps, hfirst] at h
      obtain rfl := Except.error.inj h
      cases op with
      | mark label => cases hfirst
      | jump kind label =>
        have hmem := hlabels label (mem_jumpLabels.mpr ⟨kind, .head _⟩)
        cases hl : labels.lookup label with
        | none => exact absurd hmem (lookup_eq_none.mp hl)
        | some target =>
          rw [encodeOp_jump.mpr ⟨target, hl, rfl⟩] at hfirst
          cases hfirst
      | instr i =>
        cases i with
        | const value =>
          cases value with
          | string bytes =>
            simp only [encodeOp, encodeInstr, encodeConstant] at hfirst
            split at hfirst
            · cases hfirst
            · next hlong =>
              refine ⟨bytes, .head _, ?_, (Except.error.inj hfirst).symm⟩
              simp only [maxStringLength]
              omega
          | _ => cases hfirst
        | _ => cases hfirst

theorem Labelled.link_cases {code : Code} (h : Labelled code) :
    (∃ o, link code = .ok o) ∨ ∃ bytes, .instr (.const (.string bytes)) ∈ code.lines ∧
      maxStringLength < bytes.length ∧ link code = .error (.stringTooLong bytes.length) := by
  have hlabels : ∀ label ∈ jumpLabels code.lines, label ∈ code.labels.map Prod.fst := by
    intro label hl
    rw [map_fst_labels, mem_reverse]
    exact h.jumps label hl
  have hlayout : placeRoutines code.routines headerSize [] =
      .ok ⟨routineInfos headerSize code.routines, code.labels, headerSize + opsSize code.lines⟩ :=
    placeRoutines_eq_ok.mpr ⟨h.once, by simp, by simp [Code.labels, Code.lines]⟩
  cases hbody : encodeOps code.labels code.lines headerSize with
  | ok body =>
    have hstrings := (encodeOps_isOk.mp ⟨body, hbody⟩).2
    exact .inl ⟨_, link_eq_ok.mpr ⟨⟨h, hstrings⟩, body, hbody, rfl⟩⟩
  | error fault =>
    obtain ⟨bytes, hmem, hlong, rfl⟩ := encodeOps_error hlabels hbody
    refine .inr ⟨bytes, hmem, hlong, ?_⟩
    rw [link, hlayout]
    show (encodeOps code.labels code.lines headerSize >>= _) = _
    rw [hbody]
    rfl

end Nwscript
