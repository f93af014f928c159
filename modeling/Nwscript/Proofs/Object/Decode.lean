import Nwscript.Object.Listing
import Nwscript.Proofs.Object.Link

/-! # Reading linked objects

The instructions of a linked object are the lines of its code, marks apart, each where linking laid it
out; a jump shows the offset of its mark. -/

open List

namespace Nwscript

variable {opcode : UInt8} {bytes : Bytes} {labels : LabelOffsets}

/-! ## Words -/

theorem or_shiftLeft (high low places : Nat) (h : low < 2 ^ places) :
    high <<< places ||| low = high * 2 ^ places + low := by
  rw [← Nat.shiftLeft_add_eq_or_of_lt h, Nat.shiftLeft_eq]

theorem word16_join (n : UInt16) : ((n >>> 8).toUInt8.toUInt16 <<< 8) ||| n.toUInt8.toUInt16 = n := by
  have hlt := n.toNat_lt
  apply UInt16.toNat.inj
  simp only [UInt16.toNat_or, UInt16.toNat_shiftLeft, UInt8.toNat_toUInt16, UInt16.toNat_toUInt8,
    UInt16.toNat_shiftRight, UInt16.reduceToNat, Nat.reduceMod]
  have hhigh : (n.toNat >>> 8 % 2 ^ 8) <<< 8 % 2 ^ 16 = (n.toNat / 256) <<< 8 := by
    rw [Nat.shiftRight_eq_div_pow, Nat.shiftLeft_eq, Nat.shiftLeft_eq]
    omega
  rw [hhigh, or_shiftLeft _ _ 8 (Nat.mod_lt _ (by decide))]
  omega

theorem word32_join (n : UInt32) :
    ((n >>> 24).toUInt8.toUInt32 <<< 24) ||| ((n >>> 16).toUInt8.toUInt32 <<< 16) |||
      ((n >>> 8).toUInt8.toUInt32 <<< 8) ||| n.toUInt8.toUInt32 = n := by
  have hlt := n.toNat_lt
  apply UInt32.toNat.inj
  simp only [UInt32.toNat_or, UInt32.toNat_shiftLeft, UInt8.toNat_toUInt32, UInt32.toNat_toUInt8,
    UInt32.toNat_shiftRight, UInt32.reduceToNat, Nat.reduceMod]
  have hpart (k : Nat) (hk : k = 8 ∨ k = 16 ∨ k = 24) :
      (n.toNat >>> k % 2 ^ 8) <<< k % 2 ^ 32 = (n.toNat / 2 ^ k % 256) <<< k := by
    rw [Nat.shiftRight_eq_div_pow, Nat.shiftLeft_eq, Nat.shiftLeft_eq]
    rcases hk with rfl | rfl | rfl <;> omega
  rw [hpart 24 (by simp), hpart 16 (by simp), hpart 8 (by simp), Nat.or_assoc, Nat.or_assoc]
  rw [or_shiftLeft (n.toNat / 2 ^ 8 % 256) (n.toNat % 2 ^ 8) 8 (by omega),
    or_shiftLeft (n.toNat / 2 ^ 16 % 256) (n.toNat / 2 ^ 8 % 256 * 2 ^ 8 + n.toNat % 2 ^ 8) 16 (by omega),
    or_shiftLeft (n.toNat / 2 ^ 24 % 256) _ 24 (by omega)]
  omega

namespace Decoder

variable {rest : Bytes} {offset : Nat}

theorem word16_bigEndian16 (n : UInt16) :
    word16 ⟨bigEndian16 n ++ rest, offset⟩ = .ok (n, ⟨rest, offset + 2⟩) := by
  have hrun : word16 ⟨bigEndian16 n ++ rest, offset⟩ =
      .ok (((n >>> 8).toUInt8.toUInt16 <<< 8) ||| n.toUInt8.toUInt16, ⟨rest, offset + 2⟩) := rfl
  rw [hrun, word16_join]

theorem word32_bigEndian32 (n : UInt32) :
    word32 ⟨bigEndian32 n ++ rest, offset⟩ = .ok (n, ⟨rest, offset + 4⟩) := by
  have hrun : word32 ⟨bigEndian32 n ++ rest, offset⟩ =
      .ok (((n >>> 24).toUInt8.toUInt32 <<< 24) ||| ((n >>> 16).toUInt8.toUInt32 <<< 16) |||
        ((n >>> 8).toUInt8.toUInt32 <<< 8) ||| n.toUInt8.toUInt32, ⟨rest, offset + 4⟩) := rfl
  rw [hrun, word32_join]

theorem bind_apply {α β : Type} (d : Decoder α) (k : α → Decoder β) (c : ByteCursor) :
    (d >>= k) c = (d c).bind fun p => k p.1 p.2 := rfl

theorem pure_apply {α : Type} (a : α) (c : ByteCursor) : (pure a : Decoder α) c = .ok (a, c) := rfl

theorem int32_signed32 (n : Int32) :
    int32 ⟨signed32 n ++ rest, offset⟩ = .ok (n, ⟨rest, offset + 4⟩) := by
  rw [int32, bind_apply, signed32, word32_bigEndian32]
  rfl

theorem split_append (bytes taken : Bytes) :
    split bytes.length taken (bytes ++ rest) = some (taken.reverse ++ bytes, rest) := by
  induction bytes generalizing taken with
  | nil => simp [split]
  | cons b bytes ih => simp [split, ih]

theorem take_append (bytes : Bytes) :
    take bytes.length ⟨bytes ++ rest, offset⟩ = .ok (bytes, ⟨rest, offset + bytes.length⟩) := by
  have hsplit := @split_append rest bytes []
  rw [reverse_nil, nil_append] at hsplit
  have hget : (get : Decoder ByteCursor) ⟨bytes ++ rest, offset⟩ =
      .ok (⟨bytes ++ rest, offset⟩, ⟨bytes ++ rest, offset⟩) := rfl
  rw [take, bind_apply, hget]
  simp only [Except.bind, hsplit]
  rfl

/-! ## Instructions -/

theorem instruction_eq {type : UInt8} {rest' : Bytes} {stop : Nat} {what : Decoded}
    (h : operands offset opcode type ⟨rest, offset + 2⟩ = .ok (what, ⟨rest', stop⟩)) :
    instruction ⟨opcode :: type :: rest, offset⟩ =
      .ok (⟨offset, stop - offset, what⟩, ⟨rest', stop⟩) := by
  show ((operands offset opcode type ⟨rest, offset + 2⟩).bind fun p => _) = _
  rw [h]
  rfl

theorem operands_binary (hlo : Opcode.logAnd ≤ opcode) (hhi : opcode ≤ Opcode.mod)
    (start : Nat) (type : UInt8) : operands start opcode type = binary opcode type := by
  have hne (other : UInt8) (h : other < Opcode.logAnd ∨ Opcode.mod < other) : opcode ≠ other := by
    rintro rfl
    rcases h with h | h
    · exact absurd hlo (UInt8.not_le.mpr h)
    · exact absurd hhi (UInt8.not_le.mpr h)
  unfold operands
  rw [if_neg (hne _ (by decide)), if_neg (hne _ (by decide)), if_neg (hne _ (by decide)),
    if_neg (hne _ (by decide)), if_neg (hne _ (by decide)), if_neg (hne _ (by decide)),
    if_neg (hne _ (by decide)), if_pos (by simp [hlo, hhi])]

theorem constant_encodeConstant {k : Constant} (h : encodeConstant k = .ok bytes) :
    ∃ type more, bytes = Opcode.const :: type :: more ∧
      constant type ⟨more ++ rest, offset + 2⟩ = .ok (k, ⟨rest, offset + (Instr.const k).size⟩) := by
  cases k with
  | int n =>
    cases h
    refine ⟨_, signed32 n, rfl, ?_⟩
    show (do return Constant.int (← int32) : Decoder Constant) _ = _
    simp only [bind_apply, int32_signed32, Except.bind, pure_apply, Instr.size]
  | float x =>
    cases h
    refine ⟨_, bigEndian32 x.bits, rfl, ?_⟩
    show (do return Constant.float ⟨← word32⟩ : Decoder Constant) _ = _
    simp only [bind_apply, word32_bigEndian32, Except.bind, pure_apply, Instr.size]
  | object n =>
    cases h
    refine ⟨_, signed32 n, rfl, ?_⟩
    show (do return Constant.object (← int32) : Decoder Constant) _ = _
    simp only [bind_apply, int32_signed32, Except.bind, pure_apply, Instr.size]
  | string text =>
    rw [encodeConstant] at h
    split at h
    · next hlt =>
      cases h
      have hlen : text.length.toUInt16.toNat = text.length := by
        simp only [Nat.toUInt16_eq, UInt16.toNat_ofNat']
        omega
      refine ⟨_, bigEndian16 text.length.toUInt16 ++ text, rfl, ?_⟩
      show (do return Constant.string (← take (← word16).toNat) : Decoder Constant) _ = _
      simp only [bind_apply, append_assoc, word16_bigEndian16, Except.bind, hlen, take_append,
        pure_apply, Instr.size, Nat.add_assoc, Nat.reduceAdd]
    · cases h

/-- An operator can be told from other instructions, and its types from a pair of structures. -/
def Readable : Instr → Prop
  | .binary opcode pair =>
    (Opcode.logAnd ≤ opcode ∧ opcode ≤ Opcode.mod) ∧ pair ≠ PairByte.structStruct
  | .compare opcode _ => Opcode.logAnd ≤ opcode ∧ opcode ≤ Opcode.mod
  | _ => True

theorem operands_encodeInstr {i : Instr} (hi : Readable i) (h : encodeInstr i = .ok bytes) :
    ∃ opcode type more, bytes = opcode :: type :: more ∧
      operands offset opcode type ⟨more ++ rest, offset + 2⟩ =
        .ok (.instr i, ⟨rest, offset + i.size⟩) := by
  cases i with
  | const k =>
    obtain ⟨type, more, rfl, hread⟩ := @constant_encodeConstant bytes rest offset k h
    refine ⟨_, type, more, rfl, ?_⟩
    show (do return .instr (.const (← constant type)) : Decoder Decoded) _ = _
    rw [bind_apply, hread]
    rfl
  | copyDown base at_ size =>
    cases h
    refine ⟨_, _, signed32 at_ ++ bigEndian16 size, rfl, ?_⟩
    have hread : copyDown base ⟨signed32 at_ ++ bigEndian16 size ++ rest, offset + 2⟩ =
        .ok (.instr (.copyDown base at_ size), ⟨rest, offset + 2 + 4 + 2⟩) := by
      simp only [copyDown, bind_apply, append_assoc, int32_signed32, word16_bigEndian16,
        Except.bind, pure_apply]
    cases base with
    | stack => exact hread
    | globals => exact hread
  | copyTop base at_ size =>
    cases h
    refine ⟨_, _, signed32 at_ ++ bigEndian16 size, rfl, ?_⟩
    have hread : copyTop base ⟨signed32 at_ ++ bigEndian16 size ++ rest, offset + 2⟩ =
        .ok (.instr (.copyTop base at_ size), ⟨rest, offset + 2 + 4 + 2⟩) := by
      simp only [copyTop, bind_apply, append_assoc, int32_signed32, word16_bigEndian16,
        Except.bind, pure_apply]
    cases base with
    | stack => exact hread
    | globals => exact hread
  | step s base at_ =>
    cases h
    refine ⟨_, _, signed32 at_, rfl, ?_⟩
    have hread : step s base ⟨signed32 at_ ++ rest, offset + 2⟩ =
        .ok (.instr (.step s base at_), ⟨rest, offset + 2 + 4⟩) := by
      simp only [step, bind_apply, int32_signed32, Except.bind, pure_apply]
    cases s <;> cases base <;> exact hread
  | action ordinal argc =>
    cases h
    refine ⟨_, _, bigEndian16 ordinal ++ [argc], rfl, ?_⟩
    show (do
      let ordinal ← word16
      return .instr (.action ordinal (← byte)) : Decoder Decoded) _ = _
    simp only [bind_apply, append_assoc, word16_bigEndian16, Except.bind]
    rfl
  | binary opcode pair =>
    cases h
    refine ⟨opcode, pair, [], rfl, ?_⟩
    rw [operands_binary hi.1.1 hi.1.2, binary, if_neg hi.2]
    rfl
  | compare opcode size =>
    cases h
    refine ⟨opcode, PairByte.structStruct, bigEndian16 size, rfl, ?_⟩
    rw [operands_binary hi.1 hi.2, binary, if_pos rfl]
    simp only [bind_apply, word16_bigEndian16, Except.bind, pure_apply, Instr.size]
  | moveSp at_ =>
    cases h
    refine ⟨_, _, signed32 at_, rfl, ?_⟩
    show (do return .instr (.moveSp (← int32)) : Decoder Decoded) _ = _
    simp only [bind_apply, int32_signed32, Except.bind, pure_apply, Instr.size]
  | destruct size keepOffset keepSize =>
    cases h
    refine ⟨_, _, bigEndian16 size ++ bigEndian16 keepOffset ++ bigEndian16 keepSize, rfl, ?_⟩
    show (do
      let size ← word16
      let keepOffset ← word16
      return .instr (.destruct size keepOffset (← word16)) : Decoder Decoded) _ = _
    simp only [bind_apply, append_assoc, word16_bigEndian16, Except.bind, pure_apply, Instr.size]
  | storeState globals frame =>
    cases h
    refine ⟨_, _, bigEndian32 globals ++ bigEndian32 frame, rfl, ?_⟩
    show (do
      let globals ← word32
      return .instr (.storeState globals (← word32)) : Decoder Decoded) _ = _
    simp only [bind_apply, append_assoc, word32_bigEndian32, Except.bind, pure_apply, Instr.size]
  | _ =>
    cases h
    exact ⟨_, _, [], rfl, rfl⟩

theorem operands_encodeJump (kind : JumpKind) (distance : Int32) :
    operands offset (jumpOpcode kind) TypeByte.void ⟨signed32 distance ++ rest, offset + 2⟩ =
      .ok (.jump kind distance, ⟨rest, offset + 6⟩) := by
  have hread : jump kind ⟨signed32 distance ++ rest, offset + 2⟩ =
      .ok (.jump kind distance, ⟨rest, offset + 2 + 4⟩) := by
    simp only [jump, bind_apply, int32_signed32, Except.bind, pure_apply]
  cases kind <;> exact hread

end Decoder

/-! ## Lines -/

def locatedOps (labels : LabelOffsets) : Nat → List Op → List Located
  | _, [] => []
  | offset, .mark _ :: ops => locatedOps labels offset ops
  | offset, .instr i :: ops => ⟨offset, i.size, .instr i⟩ :: locatedOps labels (offset + i.size) ops
  | offset, .jump kind label :: ops =>
    ⟨offset, 6, .jump kind (.ofInt ((((labels.lookup label).getD 0 : Nat) : Int) - offset))⟩ ::
      locatedOps labels (offset + 6) ops

namespace Decoder

theorem instructions_cons {rest : Bytes} {offset stop : Nat} {l : Located} {steps : Nat}
    {type : UInt8} {more : Bytes} (hbytes : bytes = opcode :: type :: more)
    (h : instruction ⟨bytes ++ rest, offset⟩ = .ok (l, ⟨rest, stop⟩)) :
    instructions (steps + 1) ⟨bytes ++ rest, offset⟩ =
      (instructions steps ⟨rest, stop⟩).map fun p => (l :: p.1, p.2) := by
  subst hbytes
  show ((instruction ⟨opcode :: type :: more ++ rest, offset⟩).bind fun p => _) = _
  rw [h]
  show ((instructions steps ⟨rest, stop⟩).bind fun p => _) = _
  cases instructions steps ⟨rest, stop⟩ <;> rfl

theorem instruction_encodeOp {op : Op} {offset : Nat} {rest : Bytes}
    (hread : ∀ i, op = .instr i → Readable i) (hmark : ∀ label, op ≠ .mark label)
    (h : encodeOp labels offset op = .ok bytes) : ∃ opcode type more l, bytes = opcode :: type :: more ∧
      (∀ ops, locatedOps labels offset (op :: ops) = l :: locatedOps labels (offset + op.size) ops) ∧
      instruction ⟨bytes ++ rest, offset⟩ = .ok (l, ⟨rest, offset + op.size⟩) := by
  cases op with
  | instr i =>
    obtain ⟨opcode, type, more, rfl, hops⟩ :=
      @operands_encodeInstr bytes rest offset i (hread i rfl) h
    refine ⟨opcode, type, more, _, rfl, fun ops => rfl, ?_⟩
    have hone := instruction_eq hops
    rw [Nat.add_sub_cancel_left] at hone
    exact hone
  | jump kind label =>
    obtain ⟨target, htarget, rfl⟩ := encodeOp_jump.mp h
    refine ⟨jumpOpcode kind, TypeByte.void, signed32 _, _, rfl, fun ops => rfl, ?_⟩
    have hone := instruction_eq (@operands_encodeJump rest offset kind (.ofInt ((target : Int) - offset)))
    rw [Nat.add_sub_cancel_left] at hone
    rw [htarget]
    exact hone
  | mark label => exact absurd rfl (hmark label)

theorem instructions_encodeOps {ops : List Op}
    (hread : ∀ i, Op.instr i ∈ ops → Readable i) {offset : Nat} {body : Bytes}
    (h : encodeOps labels ops offset = .ok body) {steps : Nat} (hsteps : body.length ≤ steps) :
    instructions steps ⟨body, offset⟩ = .ok (locatedOps labels offset ops, ⟨[], offset + opsSize ops⟩) := by
  induction ops generalizing offset body steps with
  | nil =>
    cases h
    cases steps <;> rfl
  | cons op ops ih =>
    obtain ⟨bytes, rest, hbytes, hrest, rfl⟩ := encodeOps_cons.mp h
    have ih {steps : Nat} := @ih (fun i hi => hread i (.tail _ hi)) _ _ hrest steps
    by_cases hmark : ∃ label, op = .mark label
    · obtain ⟨label, rfl⟩ := hmark
      cases hbytes
      rw [opsSize_cons, ← Nat.add_assoc]
      exact ih hsteps
    · obtain ⟨opcode, type, more, l, rfl, hlocated, hone⟩ := @instruction_encodeOp _ labels op offset rest
        (fun i hi => hread i (hi ▸ .head _)) (fun label hl => hmark ⟨label, hl⟩) hbytes
      rw [length_append, length_cons] at hsteps
      obtain ⟨steps, rfl⟩ : ∃ k, steps = k + 1 := ⟨steps - 1, by omega⟩
      rw [instructions_cons rfl hone, ih (by omega), hlocated, opsSize_cons, ← Nat.add_assoc]
      rfl

theorem header_link (size : Nat) (hsize : size < 2 ^ 32) (body : Bytes)
    (hlength : (Nwscript.header size ++ body).length = size) :
    header size ⟨Nwscript.header size ++ body, 0⟩ = .ok ((), ⟨body, headerSize⟩) := by
  have hle : headerSize ≤ size := by
    rw [← hlength, length_append, length_header]
    omega
  have hrecorded : size.toUInt32.toNat = size := by
    simp only [Nat.toUInt32_eq, UInt32.toNat_ofNat']
    omega
  have hsignature : signature.isPrefixOf (Nwscript.header size ++ body) = true := rfl
  have htake : take signature.length ⟨Nwscript.header size ++ body, 0⟩ =
      .ok (signature, ⟨sizeMark :: (bigEndian32 size.toUInt32 ++ body), 8⟩) :=
    @take_append (sizeMark :: (bigEndian32 size.toUInt32 ++ body)) 0 signature
  have hword := @word32_bigEndian32 body 9 size.toUInt32
  unfold header
  show (if size < headerSize || !signature.isPrefixOf (Nwscript.header size ++ body) then _
    else _ : Decoder Unit) _ = _
  rw [if_neg (by simp [hsignature, hle]), bind_apply, htake]
  show (if sizeMark ≠ sizeMark then fail .missingSize else (do
      let recorded := (← word32).toNat
      if recorded ≠ size then fail (.wrongSize recorded size)) : Decoder Unit)
    ⟨bigEndian32 size.toUInt32 ++ body, 9⟩ = _
  rw [if_neg (fun h => h rfl), bind_apply, hword]
  show (if size.toUInt32.toNat ≠ size then fail (.wrongSize size.toUInt32.toNat size) else pure () :
    Decoder Unit) ⟨body, 13⟩ = _
  rw [if_neg (fun h => h hrecorded)]
  rfl

end Decoder

theorem decodeObject_link {code : Code} (hsize : headerSize + opsSize code.lines < 2 ^ 31)
    (hread : ∀ i, Op.instr i ∈ code.lines → Decoder.Readable i) {o : Object} (h : link code = .ok o) :
    decodeObject o.bytes = .ok (locatedOps code.labels headerSize code.lines) := by
  obtain ⟨-, body, hbody, rfl⟩ := link_eq_ok.mp h
  have hlength : (header (headerSize + opsSize code.lines) ++ body).length =
      headerSize + opsSize code.lines := by
    rw [length_append, length_header, length_encodeOps hbody]
  have hsteps : body.length ≤ headerSize + opsSize code.lines := by
    rw [length_encodeOps hbody]
    omega
  simp only [decodeObject, hlength]
  rw [Decoder.header_link _ (by omega) body hlength]
  show ((Decoder.instructions _ ⟨body, headerSize⟩).bind fun p => _) = _
  rw [Decoder.instructions_encodeOps hread hbody hsteps]
  rfl

/-! ## Listings -/

/-- What a listing shows of lines from an offset on: the name of every line with the types of its
operands, then its operands. A jump shows the offset of its label. -/
def shownOps (labels : LabelOffsets) : Nat → List Op → List ListedInstr
  | _, [] => []
  | offset, .mark _ :: ops => shownOps labels offset ops
  | offset, .instr i :: ops =>
    ⟨offset, i.size, i.mnemonic, i.operandText⟩ :: shownOps labels (offset + i.size) ops
  | offset, .jump kind label :: ops =>
    ⟨offset, 6, kind.mnemonic, Text.hexUpper 8 ((labels.lookup label).getD 0)⟩ ::
      shownOps labels (offset + 6) ops

theorem offsetText_jump {target offset : Nat} (htarget : target < 2 ^ 31) (hoffset : offset < 2 ^ 31) :
    offsetText (offset + (Int32.ofInt ((target : Int) - offset)).toInt) = Text.hexUpper 8 target := by
  have hsum : (offset : Int) + (Int32.ofInt ((target : Int) - offset)).toInt = target := by
    rw [Fits.toInt_ofInt ⟨by omega, by omega⟩]
    omega
  rw [hsum, offsetText]
  congr 1
  omega

theorem map_listed_locatedOps {ops : List Op} {offset : Nat} (hsize : offset + opsSize ops < 2 ^ 31)
    (hlabels : ∀ label ∈ jumpLabels ops, (labels.lookup label).getD 0 < 2 ^ 31) :
    (locatedOps labels offset ops).map Located.listed = shownOps labels offset ops := by
  induction ops generalizing offset with
  | nil => rfl
  | cons op ops ih =>
    rw [opsSize_cons, ← Nat.add_assoc] at hsize
    have hrest : ∀ label ∈ jumpLabels ops, (labels.lookup label).getD 0 < 2 ^ 31 := by
      intro label hl
      obtain ⟨kind, hmem⟩ := mem_jumpLabels.mp hl
      exact hlabels label (mem_jumpLabels.mpr ⟨kind, .tail _ hmem⟩)
    have ih := ih hsize hrest
    cases op with
    | mark label => exact ih
    | instr i => exact congrArg _ ih
    | jump kind label =>
      have htarget := hlabels label (mem_jumpLabels.mpr ⟨kind, .head _⟩)
      have htext := @offsetText_jump _ offset htarget (by omega)
      simp only [locatedOps, shownOps, map_cons, Located.listed, htext]
      exact congrArg _ ih

end Nwscript
