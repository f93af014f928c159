import Nwscript.Proofs.Object.Decode
import Nwscript.Proofs.Text.Quoted

/-! # Listings of any bytes

Whatever the bytes are, reading them as an object ends: at a fault that lies within them, or with
instructions that lie one behind the other from the header to the last byte. The header records how many
bytes there are, so bytes that can be read can neither be cut short nor carried on. String constants are
shown with all of their bytes, but for an order mark in front. -/

open List

namespace Nwscript

variable {c c' : ByteCursor} {bytes : Bytes}

/-! ## Cursors -/

namespace ByteCursor

def stop (c : ByteCursor) : Nat := c.offset + c.rest.length

structure Past (k : Nat) (c c' : ByteCursor) : Prop where
  read : c.offset + k ≤ c'.offset
  stop_eq : c'.stop = c.stop

theorem Past.trans {k m : Nat} {c'' : ByteCursor} (h : c.Past k c') (h' : c'.Past m c'') :
    c.Past (k + m) c'' := by
  have hread := h.read
  have hread' := h'.read
  exact ⟨by omega, h'.stop_eq.trans h.stop_eq⟩

end ByteCursor

namespace Decoder

/-- The decoder reads `k` bytes or more, or fails at an offset within the bytes, if it is run from `start`
on. -/
structure Steps {α : Type} (start k : Nat) (d : Decoder α) : Prop where
  ok : ∀ c a c', d c = .ok (a, c') → c.Past k c'
  error : ∀ c e, start ≤ c.offset → d c = .error e → e.offset ≤ c.stop

section Rules

variable {α β : Type} {start k m : Nat} {d : Decoder α} {f : α → Decoder β}

theorem Steps.bind (hd : Steps start k d) (hf : ∀ a, Steps start m (f a)) :
    Steps start (k + m) (d >>= f) := by
  refine ⟨fun c b c'' h => ?_, fun c e hstart h => ?_⟩
  · rw [bind_apply] at h
    cases hc : d c with
    | error e => simp [hc, Except.bind] at h
    | ok p =>
      simp only [hc, Except.bind] at h
      exact (hd.ok c p.1 p.2 hc).trans ((hf p.1).ok p.2 b c'' h)
  · rw [bind_apply] at h
    cases hc : d c with
    | error e' =>
      simp only [hc, Except.bind, Except.error.injEq] at h
      exact h ▸ hd.error c e' hstart hc
    | ok p =>
      simp only [hc, Except.bind] at h
      have hpast := hd.ok c p.1 p.2 hc
      have hread := hpast.read
      rw [← hpast.stop_eq]
      exact (hf p.1).error p.2 e (by omega) h

theorem Steps.any (h : Steps start k d) : Steps start 0 d := by
  refine ⟨fun c a c' hc => ?_, h.error⟩
  have hpast := h.ok c a c' hc
  have hread := hpast.read
  exact ⟨by omega, hpast.stop_eq⟩

theorem Steps.then (hd : Steps start k d) (hf : ∀ a, Steps start 0 (f a)) : Steps start k (d >>= f) :=
  hd.bind hf

theorem Steps.pure (a : α) : Steps start 0 (Pure.pure a : Decoder α) := by
  refine ⟨fun c a c' h => ?_, fun c e _ h => (by cases h)⟩
  obtain ⟨-, rfl⟩ := Prod.mk.inj (Except.ok.inj h)
  exact ⟨Nat.le_refl _, rfl⟩

theorem Steps.get : Steps start 0 (get : Decoder ByteCursor) := by
  refine ⟨fun c a c' h => ?_, fun c e _ h => (by cases h)⟩
  obtain ⟨-, rfl⟩ := Prod.mk.inj (Except.ok.inj h)
  exact ⟨Nat.le_refl _, rfl⟩

theorem Steps.fail (fault : ObjectFault) : Steps start k (fail fault : Decoder α) := by
  refine ⟨fun c a c' h => (by cases h), fun c e _ h => ?_⟩
  obtain rfl := Except.error.inj h
  exact Nat.le_add_right _ _

/-- Nothing is read behind a fault that lies further ahead. -/
theorem Steps.throwAt (fault : ObjectFault) : Steps start k (throw ⟨fault, start⟩ : Decoder α) := by
  refine ⟨fun c a c' h => (by cases h), fun c e hstart h => ?_⟩
  obtain rfl := Except.error.inj h
  exact Nat.le_trans hstart (Nat.le_add_right _ _)

theorem Steps.ite {p : Prop} [Decidable p] {d' : Decoder α} (h : Steps start k d)
    (h' : Steps start k d') : Steps start k (if p then d else d') := by
  split
  · exact h
  · exact h'

end Rules

variable {start : Nat}

/-- A decoder that takes `k` bytes, or fails where it stands. -/
theorem steps_of_take {α : Type} {k : Nat} {d : Decoder α}
    (h : ∀ c, (∃ taken rest a, taken.length = k ∧ c.rest = taken ++ rest ∧
      d c = .ok (a, ⟨rest, c.offset + k⟩)) ∨ ∃ fault, d c = .error ⟨fault, c.offset⟩) :
    Steps start k d := by
  refine ⟨fun c a c' hc => ?_, fun c e _ hc => ?_⟩
  · rcases h c with ⟨taken, rest, b, hlength, hrest, hrun⟩ | ⟨fault, hrun⟩
    · obtain ⟨-, rfl⟩ := Prod.mk.inj (Except.ok.inj (hrun.symm.trans hc))
      refine ⟨Nat.le_refl _, ?_⟩
      rw [ByteCursor.stop, ByteCursor.stop, hrest, length_append, hlength, Nat.add_assoc]
    · cases hrun.symm.trans hc
  · rcases h c with ⟨taken, rest, b, -, -, hrun⟩ | ⟨fault, hrun⟩
    · cases hrun.symm.trans hc
    · obtain rfl := Except.error.inj (hrun.symm.trans hc)
      exact Nat.le_add_right _ _

theorem steps_byte : Steps start 1 byte := by
  refine steps_of_take fun c => ?_
  rcases c with ⟨_ | ⟨a, rest⟩, offset⟩
  · exact .inr ⟨_, rfl⟩
  · exact .inl ⟨[a], rest, _, rfl, rfl, rfl⟩

theorem steps_word16 : Steps start 2 word16 := by
  refine steps_of_take fun c => ?_
  rcases c with ⟨_ | ⟨a, _ | ⟨b, rest⟩⟩, offset⟩
  · exact .inr ⟨_, rfl⟩
  · exact .inr ⟨_, rfl⟩
  · exact .inl ⟨[a, b], rest, _, rfl, rfl, rfl⟩

theorem steps_word32 : Steps start 4 word32 := by
  refine steps_of_take fun c => ?_
  rcases c with ⟨_ | ⟨a, _ | ⟨b, _ | ⟨x, _ | ⟨y, rest⟩⟩⟩⟩, offset⟩
  · exact .inr ⟨_, rfl⟩
  · exact .inr ⟨_, rfl⟩
  · exact .inr ⟨_, rfl⟩
  · exact .inr ⟨_, rfl⟩
  · exact .inl ⟨[a, b, x, y], rest, _, rfl, rfl, rfl⟩

theorem steps_int32 : Steps start 4 int32 := steps_word32.then fun _ => .pure _

theorem split_eq_some {n : Nat} {taken front rest : Bytes}
    (h : split n taken bytes = some (front, rest)) :
    ∃ more, more.length = n ∧ bytes = more ++ rest := by
  induction n generalizing taken bytes with
  | zero =>
    obtain ⟨-, rfl⟩ := Prod.mk.inj (Option.some.inj h)
    exact ⟨[], rfl, rfl⟩
  | succ n ih =>
    cases bytes with
    | nil => cases h
    | cons b bytes =>
      obtain ⟨more, hlength, rfl⟩ := ih h
      exact ⟨b :: more, congrArg (· + 1) hlength, rfl⟩

theorem steps_take (n : Nat) : Steps start n (take n) := by
  refine steps_of_take fun c => ?_
  have hget : (get : Decoder ByteCursor) c = .ok (c, c) := rfl
  rw [take, bind_apply, hget]
  cases hsplit : split n [] c.rest with
  | none =>
    refine .inr ⟨.truncated, ?_⟩
    simp only [Except.bind, hsplit]
    rfl
  | some p =>
    obtain ⟨more, hlength, hrest⟩ := split_eq_some hsplit
    refine .inl ⟨more, p.2, p.1, hlength, hrest, ?_⟩
    simp only [Except.bind, hsplit]
    rfl

/-! ## Instructions -/

theorem steps_constant (type : UInt8) : Steps start 0 (constant type) := by
  have hint : Steps start 0 int32 := steps_int32.any
  have hword : Steps start 0 word32 := steps_word32.any
  refine .ite (hint.then fun _ => .pure _) (.ite (hword.then fun _ => .pure _) (.ite ?_ (.ite ?_ ?_)))
  · exact steps_word16.any.then fun n =>
      (steps_take _).any.then fun _ => .pure _
  · exact hint.then fun _ => .pure _
  · exact .fail _

/-- What stands behind the opcode and the types, however long it is. -/
theorem steps_operands (opcode type : UInt8) : Steps start 0 (operands start opcode type) := by
  have hbyte : Steps start 0 byte := steps_byte.any
  have hword16 : Steps start 0 word16 := steps_word16.any
  have hword32 : Steps start 0 word32 := steps_word32.any
  have hint : Steps start 0 int32 := steps_int32.any
  have hcopyDown (base : Base) : Steps start 0 (copyDown base) :=
    hint.then fun _ => hword16.then fun _ => .pure _
  have hcopyTop (base : Base) : Steps start 0 (copyTop base) :=
    hint.then fun _ => hword16.then fun _ => .pure _
  have hstep (s : Step) (base : Base) : Steps start 0 (step s base) := hint.then fun _ => .pure _
  have hjump (kind : JumpKind) : Steps start 0 (jump kind) := hint.then fun _ => .pure _
  have hbinary : Steps start 0 (binary opcode type) := .ite (hword16.then fun _ => .pure _) (.pure _)
  unfold operands
  refine .ite (hcopyDown _) (.ite (hcopyTop _) (.ite (hcopyDown _) (.ite (hcopyTop _) ?_)))
  refine .ite (.pure _) (.ite ((steps_constant type).then fun _ => .pure _) ?_)
  refine .ite (hword16.then fun _ => hbyte.then fun _ => .pure _) (.ite hbinary ?_)
  refine .ite (.pure _) (.ite (.pure _) (.ite (.pure _) (.ite (hint.then fun _ => .pure _) ?_)))
  refine .ite (hjump _) (.ite (hjump _) (.ite (hjump _) (.ite (hjump _) (.ite (.pure _) ?_))))
  refine .ite (hword16.then fun _ => hword16.then fun _ => hword16.then fun _ => .pure _) ?_
  refine .ite (hstep _ _) (.ite (hstep _ _) (.ite (hstep _ _) (.ite (hstep _ _) ?_)))
  refine .ite (.pure _) (.ite (.pure _) ?_)
  exact .ite (hword32.then fun _ => hword32.then fun _ => .pure _) (.ite (.pure _) (.throwAt _))

def decoded (start : Nat) : Decoder Decoded := do
  let opcode ← byte
  let type ← byte
  operands start opcode type

theorem steps_decoded : Steps start 2 (decoded start) :=
  steps_byte.bind fun opcode => steps_byte.then fun type => steps_operands opcode type

theorem instruction_apply (c : ByteCursor) : instruction c = (decoded c.offset c).bind
    fun p => .ok (⟨c.offset, p.2.offset - c.offset, p.1⟩, p.2) := by
  show ((byte c).bind fun p => (byte p.2).bind fun q => (operands c.offset p.1 q.1 q.2).bind fun r => _) =
    ((byte c).bind fun p => (byte p.2).bind fun q => operands c.offset p.1 q.1 q.2).bind _
  cases byte c with
  | error e => rfl
  | ok p =>
    simp only [Except.bind]
    cases byte p.2 <;> rfl

/-- Instructions of two bytes or more, one behind the other from an offset to another. -/
def Tiles : Nat → List ListedInstr → Nat → Prop
  | start, [], stop => start = stop
  | start, l :: ls, stop => l.offset = start ∧ 2 ≤ l.size ∧ Tiles (start + l.size) ls stop

theorem offset_listed (l : Located) : l.listed.offset = l.offset ∧ l.listed.size = l.size := by
  obtain ⟨offset, size, what⟩ := l
  cases what <;> exact ⟨rfl, rfl⟩

theorem instructions_apply (steps : Nat) (c : ByteCursor) : instructions (steps + 1) c =
    if c.rest.isEmpty then .ok ([], c)
    else (instruction c).bind fun p => (instructions steps p.2).bind fun q => .ok (p.1 :: q.1, q.2) := by
  show (if c.rest.isEmpty = true then pure [] else _ : Decoder (List Located)) c = _
  split <;> rfl

theorem instruction_ok {l : Located} (h : instruction c = .ok (l, c')) :
    c.Past 2 c' ∧ l.offset = c.offset ∧ c.offset + l.size = c'.offset := by
  rw [instruction_apply] at h
  obtain ⟨p, hp, hl⟩ := bind_eq_ok.mp h
  obtain ⟨rfl, rfl⟩ := Prod.mk.inj (Except.ok.inj hl)
  have hpast := steps_decoded.ok c p.1 p.2 hp
  have hread := hpast.read
  exact ⟨hpast, rfl, by dsimp only; omega⟩

/-- With a step for each byte ahead, the instructions reach to the last byte. -/
theorem instructions_ok {steps : Nat} {ls : List Located}
    (hsteps : c.rest.length ≤ steps) (h : instructions steps c = .ok (ls, c')) :
    Tiles c.offset (ls.map Located.listed) c.stop := by
  induction steps generalizing c c' ls with
  | zero =>
    obtain ⟨rfl, -⟩ := Prod.mk.inj (Except.ok.inj h)
    show c.offset = c.stop
    rw [ByteCursor.stop]
    omega
  | succ steps ih =>
    rw [instructions_apply] at h
    split at h
    · next hempty =>
      obtain ⟨rfl, -⟩ := Prod.mk.inj (Except.ok.inj h)
      rw [List.isEmpty_iff] at hempty
      show c.offset = c.stop
      rw [ByteCursor.stop, hempty, length_nil, Nat.add_zero]
    · obtain ⟨p, hp, hrest⟩ := bind_eq_ok.mp h
      obtain ⟨q, hq, hls⟩ := bind_eq_ok.mp hrest
      obtain ⟨rfl, -⟩ := Prod.mk.inj (Except.ok.inj hls)
      obtain ⟨hpast, hoffset, hsize⟩ := instruction_ok hp
      obtain ⟨hread, hstop⟩ := hpast
      have hlength : p.2.rest.length ≤ steps := by
        simp only [ByteCursor.stop] at hstop
        omega
      obtain ⟨hoffset', hsize'⟩ := offset_listed p.1
      refine ⟨hoffset'.trans hoffset, by omega, ?_⟩
      rw [hsize', hsize, ← hstop]
      exact ih hlength hq

theorem instructions_error {steps : Nat} {e : ObjectError}
    (h : instructions steps c = .error e) : e.offset ≤ c.stop := by
  induction steps generalizing c with
  | zero => cases h
  | succ steps ih =>
    rw [instructions_apply] at h
    split at h
    · cases h
    · cases hp : instruction c with
      | error e' =>
        simp only [hp, Except.bind, Except.error.injEq] at h
        subst h
        rw [instruction_apply] at hp
        cases hd : decoded c.offset c with
        | error e' =>
          simp only [hd, Except.bind, Except.error.injEq] at hp
          exact hp ▸ steps_decoded.error c e' (Nat.le_refl _) hd
        | ok p => simp [hd, Except.bind] at hp
      | ok p =>
        simp only [hp, Except.bind] at h
        rw [← (instruction_ok hp).1.stop_eq]
        cases hq : instructions steps p.2 with
        | error e' =>
          simp only [hq, Except.error.injEq] at h
          exact ih (h ▸ hq)
        | ok q => simp [hq] at h

/-! ## Headers -/

theorem steps_header (size : Nat) : Steps start 0 (header size) := by
  refine Steps.get.then fun c => .ite (.fail _) ?_
  refine (steps_take _).any.then fun _ => ?_
  refine steps_byte.any.then fun _ => .ite (.fail _) ?_
  exact steps_word32.any.then fun _ => .ite (.fail _) (.pure _)

def joined (a b x y : UInt8) : UInt32 :=
  (a.toUInt32 <<< 24) ||| (b.toUInt32 <<< 16) ||| (x.toUInt32 <<< 8) ||| y.toUInt32

theorem header_ok {body : ByteCursor} (h : header bytes.length ⟨bytes, 0⟩ = .ok ((), body)) :
    ∃ a b x y, bytes = signature ++ (sizeMark :: a :: b :: x :: y :: body.rest) ∧
      (joined a b x y).toNat = bytes.length ∧ body.offset = headerSize := by
  have happly : header bytes.length ⟨bytes, 0⟩ =
      if bytes.length < headerSize || !signature.isPrefixOf bytes then .error ⟨.missingSignature, 0⟩
      else (take signature.length ⟨bytes, 0⟩).bind fun p => (byte p.2).bind fun q =>
        (if q.1 ≠ sizeMark then fail .missingSize else do
          let recorded := (← word32).toNat
          if recorded ≠ bytes.length then fail (.wrongSize recorded bytes.length)) q.2 := by
    show (if (bytes.length < headerSize || !signature.isPrefixOf bytes) = true then fail .missingSignature
      else _ : Decoder Unit) _ = _
    split <;> rfl
  rw [happly] at h
  split at h
  · cases h
  · next hlead =>
    rw [Bool.or_eq_true, not_or, Bool.not_eq_true', Bool.not_eq_false, isPrefixOf_iff_prefix] at hlead
    obtain ⟨rest, hrest⟩ := hlead.2
    generalize bytes.length = size at h ⊢
    subst hrest
    rw [take_append] at h
    simp only [Except.bind] at h
    rcases rest with _ | ⟨mark, rest⟩
    · cases h
    · have hbyte : byte ⟨mark :: rest, 0 + signature.length⟩ = .ok (mark, ⟨rest, 9⟩) := rfl
      simp only [hbyte] at h
      by_cases hmark : mark = sizeMark
      · rw [if_neg (not_not.mpr hmark), bind_apply] at h
        obtain ⟨p, hword, hsize⟩ := bind_eq_ok.mp h
        rcases rest with _ | ⟨a, _ | ⟨b, _ | ⟨x, _ | ⟨y, rest⟩⟩⟩⟩
        · cases hword
        · cases hword
        · cases hword
        · cases hword
        · obtain rfl : (joined a b x y, ⟨rest, 13⟩) = p := Except.ok.inj hword
          by_cases hrecorded : (joined a b x y).toNat = size
          · simp only [hrecorded, ne_eq, not_true_eq_false, if_false] at hsize
            obtain ⟨-, rfl⟩ := Prod.mk.inj (Except.ok.inj hsize)
            exact ⟨a, b, x, y, by rw [hmark], hrecorded, rfl⟩
          · simp only [hrecorded, ne_eq, not_false_eq_true, if_true] at hsize
            cases hsize
      · rw [if_pos hmark] at h
        cases h

end Decoder

/-! ## Objects -/

theorem listInstructions_ok {ls : List ListedInstr} (h : listInstructions bytes = .ok ls) :
    ∃ body located c', Decoder.header bytes.length ⟨bytes, 0⟩ = .ok ((), body) ∧
      Decoder.instructions bytes.length body = .ok (located, c') ∧ ls = located.map Located.listed := by
  obtain ⟨located, hdecode, hls⟩ := bind_eq_ok.mp h
  obtain ⟨p, hheader, hbody⟩ := bind_eq_ok.mp hdecode
  obtain ⟨q, hrun, heq⟩ := bind_eq_ok.mp hbody
  cases heq
  exact ⟨p.2, q.1, q.2, hheader, hrun, (Except.ok.inj hls).symm⟩

theorem listInstructions_error {e : ObjectError} (h : listInstructions bytes = .error e) :
    e.offset ≤ bytes.length := by
  have hheader : Decoder.Steps 0 0 (Decoder.header bytes.length) := Decoder.steps_header _
  have hstop : (⟨bytes, 0⟩ : ByteCursor).stop = bytes.length := Nat.zero_add _
  rw [listInstructions, decodeObject] at h
  simp only [bind, Except.bind] at h
  rw [← hstop]
  cases hp : Decoder.header bytes.length ⟨bytes, 0⟩ with
  | error e' =>
    simp only [hp, Except.error.injEq] at h
    exact h ▸ hheader.error _ e' (Nat.le_refl _) hp
  | ok p =>
    simp only [hp] at h
    rw [← (hheader.ok _ p.1 p.2 hp).stop_eq]
    cases hq : Decoder.instructions bytes.length p.2 with
    | error e' =>
      simp only [hq, Except.error.injEq] at h
      exact h ▸ Decoder.instructions_error hq
    | ok q => simp [hq, pure, Except.pure] at h

theorem eq_of_listInstructions {more : Bytes} {ls ls' : List ListedInstr}
    (h : listInstructions bytes = .ok ls) (h' : listInstructions (bytes ++ more) = .ok ls') : more = [] := by
  obtain ⟨body, -, -, hheader, -⟩ := listInstructions_ok h
  obtain ⟨body', -, -, hheader', -⟩ := listInstructions_ok h'
  obtain ⟨a, b, x, y, hbytes, hsize, -⟩ := Decoder.header_ok hheader
  obtain ⟨a', b', x', y', hbytes', hsize', -⟩ := Decoder.header_ok hheader'
  rw [hbytes, append_assoc] at hbytes'
  have hsame := append_cancel_left hbytes'
  simp only [cons_append, List.cons.injEq, true_and] at hsame
  obtain ⟨rfl, rfl, rfl, rfl, -⟩ := hsame
  have hlength := hsize.symm.trans hsize'
  rw [length_append] at hlength
  exact eq_nil_of_length_eq_zero (by omega)

/-- **Any bytes can be handed to the listing.** Either it stops at an offset within them, or it lists
instructions of two bytes or more that lie one behind the other from the header to the last byte; and
bytes that it lists are no longer listed when some are cut off at their end or put behind them. -/
theorem listInstructions_exact (bytes : Bytes) :
    (∃ e, listInstructions bytes = .error e ∧ e.offset ≤ bytes.length) ∨
      ∃ ls, listInstructions bytes = .ok ls ∧ Decoder.Tiles headerSize ls bytes.length ∧
        ∀ other, (other <+: bytes ∨ bytes <+: other) → other ≠ bytes →
          ∃ e, listInstructions other = .error e ∧ e.offset ≤ other.length := by
  cases h : listInstructions bytes with
  | error e => exact .inl ⟨e, rfl, listInstructions_error h⟩
  | ok ls =>
    refine .inr ⟨ls, rfl, ?_, fun other hother hne => ?_⟩
    · obtain ⟨body, located, c', hheader, hrun, rfl⟩ := listInstructions_ok h
      obtain ⟨a, b, x, y, hbytes, -, hoffset⟩ := Decoder.header_ok hheader
      have hsteps : Decoder.Steps 0 0 (Decoder.header bytes.length) := Decoder.steps_header _
      have hstop : body.stop = bytes.length := (hsteps.ok _ _ _ hheader).stop_eq.trans (Nat.zero_add _)
      rw [← hoffset, ← hstop]
      refine Decoder.instructions_ok ?_ hrun
      rw [← hstop]
      exact Nat.le_add_left _ _
    · cases h' : listInstructions other with
      | error e => exact ⟨e, rfl, listInstructions_error h'⟩
      | ok ls' =>
        rcases hother with ⟨more, rfl⟩ | ⟨more, rfl⟩
        · exact absurd (by rw [eq_of_listInstructions h' h, append_nil]) hne
        · exact absurd (by rw [eq_of_listInstructions h h', append_nil]) hne

/-! ## String constants -/

def stringCode (bytes : Bytes) : Code where
  routines := [⟨"main", 0, [.mark 0, .instr (.const (.string bytes))]⟩]
  globalsSize := 0
  entry := none

theorem listInstructions_stringCode {bytes : Bytes} (h : bytes.length ≤ 65535) :
    ∃ o, link (stringCode bytes) = .ok o ∧ listInstructions o.bytes =
      .ok [⟨headerSize, 4 + bytes.length, "CONSTS", Text.quotedText (Text.decode bytes)⟩] := by
  have hstrings : StringsFit (stringCode bytes).lines := by
    intro text hmem
    obtain rfl : text = bytes := by simpa [stringCode, Code.lines] using hmem
    exact h
  have hlinkable : Linkable (stringCode bytes) :=
    ⟨⟨nodup_singleton 0, fun _ hl => absurd hl not_mem_nil, fun _ hl => (by cases hl)⟩, hstrings⟩
  have hread : ∀ i, Op.instr i ∈ (stringCode bytes).lines → Decoder.Readable i := by
    intro i hi
    obtain rfl : i = .const (.string bytes) := by simpa [stringCode, Code.lines] using hi
    trivial
  obtain ⟨body, hbody⟩ := encodeOps_isOk.mpr
    ⟨fun _ hl => absurd hl not_mem_nil, hlinkable.strings⟩
  have ho := link_eq_ok.mpr ⟨hlinkable, body, hbody, rfl⟩
  refine ⟨_, ho, ?_⟩
  rw [listInstructions, decodeObject_link ?_ hread ho]
  · rfl
  · show headerSize + (0 + (4 + bytes.length + 0)) < 2 ^ 31
    have : headerSize = 13 := rfl
    omega

/-- **A listing shows the quoted characters of a string constant.** Two constants are shown alike if and
only if they have the same bytes behind an order mark in front. -/
theorem listed_strings_eq_iff {xs ys : Bytes} (hxs : xs.length ≤ 65535) (hys : ys.length ≤ 65535) :
    ∃ o p : Object, link (stringCode xs) = .ok o ∧ link (stringCode ys) = .ok p ∧
      ∃ l m : ListedInstr, listInstructions o.bytes = .ok [l] ∧ listInstructions p.bytes = .ok [m] ∧
        l.operands = Text.quotedText ((Text.dropOrderMark xs).map Text.charOfByte) ∧
        (l.operands = m.operands ↔ Text.dropOrderMark xs = Text.dropOrderMark ys) := by
  obtain ⟨o, ho, hshown⟩ := listInstructions_stringCode hxs
  obtain ⟨p, hp, hshown'⟩ := listInstructions_stringCode hys
  exact ⟨o, p, ho, hp, _, _, hshown, hshown', rfl, Text.quotedText_decode_inj xs ys⟩

/-- The string `"` and a byte outside of ASCII, with and without an order mark, and another such byte. -/
theorem listed_strings_eq_iff_marked :
    (∃ o p : Object, link (stringCode [0xEF, 0xBB, 0xBF, 0x22, 0xFF]) = .ok o ∧
      link (stringCode [0x22, 0xFF]) = .ok p ∧ ∃ l m : ListedInstr,
        listInstructions o.bytes = .ok [l] ∧ listInstructions p.bytes = .ok [m] ∧
        l.operands = m.operands) ∧
    ∃ o p : Object, link (stringCode [0x22, 0xFF]) = .ok o ∧ link (stringCode [0x22, 0xFE]) = .ok p ∧
      ∃ l m : ListedInstr, listInstructions o.bytes = .ok [l] ∧ listInstructions p.bytes = .ok [m] ∧
        l.operands ≠ m.operands := by
  obtain ⟨o, p, ho, hp, l, m, hl, hm, -, halike⟩ :=
    @listed_strings_eq_iff [0xEF, 0xBB, 0xBF, 0x22, 0xFF] [0x22, 0xFF] (by decide) (by decide)
  obtain ⟨o', p', ho', hp', l', m', hl', hm', -, hother⟩ :=
    @listed_strings_eq_iff [0x22, 0xFF] [0x22, 0xFE] (by decide) (by decide)
  exact ⟨⟨o, p, ho, hp, l, m, hl, hm, halike.mpr (by decide)⟩,
    ⟨o', p', ho', hp', l', m', hl', hm', fun h => absurd (hother.mp h) (by decide)⟩⟩

/-- The objects of an order mark and of no byte are listed alike, but for the size. -/
theorem order_mark_not_shown : ∃ o p : Object, link (stringCode [0xEF, 0xBB, 0xBF]) = .ok o ∧
    link (stringCode []) = .ok p ∧ ∃ l m : ListedInstr, listInstructions o.bytes = .ok [l] ∧
      listInstructions p.bytes = .ok [m] ∧ l.size ≠ m.size ∧ l.operands = m.operands := by
  obtain ⟨o, ho, hl⟩ := @listInstructions_stringCode [0xEF, 0xBB, 0xBF] (by decide)
  obtain ⟨p, hp, hm⟩ := @listInstructions_stringCode [] (by decide)
  exact ⟨o, p, ho, hp, _, _, hl, hm, by decide, by decide⟩

end Nwscript
