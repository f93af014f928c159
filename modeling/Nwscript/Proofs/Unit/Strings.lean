import Nwscript.Proofs.Machine.IntCode
import Nwscript.Proofs.Object.Listing
import Nwscript.Proofs.Token.Coverage

/-! # Bytes of strings

A string is spelled byte by byte, each as itself or by an escape. Whatever the spelling, its bytes are
those of the literal that is read from a script file, and of the instruction that pushes it. -/

open List

namespace Nwscript

/-! ## Spellings -/

inductive StringUnit where
  | raw (c : Char)
  /-- A backslash and a letter or mark. -/
  | short (c : Char)
  | hex (a b : Char)

def digitOf (c : Char) : Nat :=
  if c ≤ '9' then c.toNat - 48 else if c ≤ 'F' then c.toNat - 55 else c.toNat - 87

namespace StringUnit

def chars : StringUnit → List Char
  | raw c => [c]
  | short c => ['\\', c]
  | hex a b => ['\\', 'x', a, b]

def Valid : StringUnit → Prop
  | raw c => c ≠ '"' ∧ c ≠ '\\' ∧ c ≠ '\n'
  | short c => c = 'n' ∨ c = 't' ∨ c = '"' ∨ c = '\\'
  | hex a b => isHexDigit a = true ∧ isHexDigit b = true

def byte : StringUnit → UInt8
  | raw c => c.toNat.toUInt8
  | short 'n' => 0x0A
  | short 't' => 0x09
  | short c => c.toNat.toUInt8
  | hex a b => (16 * digitOf a + digitOf b).toUInt8

end StringUnit

def quoted (units : List StringUnit) : List Char := '"' :: (units.flatMap StringUnit.chars ++ ['"'])

variable {u : StringUnit} {units : List StringUnit} {tail : List Char} {p : Place}

theorem scanString_unit (h : u.Valid) (rest : List Char) :
    scanString (u.chars ++ rest) p = scanString rest (p.past u.chars) := by
  cases u with
  | raw c =>
    obtain ⟨hquote, hslash, hline⟩ := h
    rw [StringUnit.chars, singleton_append, scanString]
    · rfl
    all_goals simp_all
  | short c => rcases h with rfl | rfl | rfl | rfl <;> simp [StringUnit.chars, scanString]
  | hex a b => simp [StringUnit.chars, scanString, h.1, h.2]

theorem scanString_units (h : ∀ u ∈ units, u.Valid) (p : Place) :
    scanString (units.flatMap StringUnit.chars ++ '"' :: tail) p =
      (.ok (), ⟨tail, p.past (units.flatMap StringUnit.chars ++ ['"'])⟩) := by
  induction units generalizing p with
  | nil => rfl
  | cons u units ih =>
    rw [flatMap_cons, append_assoc, scanString_unit (h u mem_cons_self),
      ih fun v hv => h v (.tail _ hv), append_assoc u.chars, Place.past_append p]

theorem scanToken_quoted (h : ∀ u ∈ units, u.Valid) (file : FileId) :
    ∃ t, scanToken file ⟨quoted units ++ tail, p⟩ = (.ok t, ⟨tail, p.past (quoted units)⟩) ∧
      t.kind = .stringLit ∧ t.text = String.ofList (quoted units) := by
  have hpast : Cursor.Past ⟨quoted units ++ tail, p⟩ (quoted units) ⟨tail, p.past (quoted units)⟩ :=
    ⟨rfl, rfl⟩
  refine ⟨tokenTo file ⟨quoted units ++ tail, p⟩ ⟨tail, p.past (quoted units)⟩ .stringLit, ?_, rfl, ?_⟩
  · have hscan : scanString (units.flatMap StringUnit.chars ++ '"' :: tail) (p.step '"') = _ :=
      scanString_units h _
    have hgap : skipGap (quoted units ++ tail) .space p = (.ok (), ⟨quoted units ++ tail, p⟩) := by
      simp [quoted, skipGap, isSpace]
    unfold scanToken
    simp only [hgap]
    show scanLexeme file '"' _ = _
    unfold scanLexeme
    simp only [quoted, cons_append, append_assoc, nil_append, Cursor.bump, hscan,
      show Decimal.isDigit '"' = false from rfl]
    rfl
  · rw [tokenTo, hpast.textTo]

/-! ## Bytes -/

theorem digitValue?_hex {x : Char} (h : isHexDigit x = true) :
    Text.digitValue? 16 x = some (digitOf x) ∧ digitOf x < 16 ∧ x ≠ '+' := by
  have hplus : x ≠ '+' := by
    rintro rfl
    cases h
  have hle (a b : Char) : a ≤ b ↔ a.toNat ≤ b.toNat := Iff.rfl
  simp only [isHexDigit, Decimal.isDigit, Bool.and_eq_true, Bool.or_eq_true,
    decide_eq_true_eq, hle, Char.reduceToNat] at h
  refine ⟨?_, ?_, hplus⟩
  · simp only [Text.digitValue?, digitOf, hle, Char.reduceToNat]
    grind
  · simp only [digitOf, hle, Char.reduceToNat]
    grind

theorem hexByte_eq {a b : Char} (ha : isHexDigit a = true) (hb : isHexDigit b = true) :
    Literal.hexByte [a, b] = [(16 * digitOf a + digitOf b).toUInt8] := by
  obtain ⟨hva, hla, hplus⟩ := digitValue?_hex ha
  obtain ⟨hvb, hlb, -⟩ := digitValue?_hex hb
  have hnumeral : Text.numeral? 16 [a, b] = some (digitOf a * 16 + digitOf b) := by
    unfold Text.numeral?
    split <;> simp_all [Text.digitsValue?]
  have hbelow : digitOf a * 16 + digitOf b < 256 := by omega
  rw [Literal.hexByte, Text.numeralBelow?, hnumeral]
  simp only [if_pos hbelow, Nat.mul_comm]

theorem unescapeAfter_unit (h : u.Valid) (hbyte : ∀ c ∈ u.chars, c.toNat < 256) (rest : List Char)
    (done : Bytes) :
    Literal.unescapeAfter (u.chars ++ rest) done = Literal.unescapeAfter rest (u.byte :: done) := by
  cases u with
  | raw c =>
    have hc : Text.encodeChar c = [c.toNat.toUInt8] := if_pos (hbyte c (by simp [StringUnit.chars]))
    rw [StringUnit.chars, singleton_append, Literal.unescapeAfter, hc]
    · rfl
    all_goals simp_all [StringUnit.Valid]
  | short c => rcases h with rfl | rfl | rfl | rfl <;> rfl
  | hex a b =>
    show Literal.unescapeAfter rest (Literal.hexByte [a, b] ++ done) = _
    rw [hexByte_eq h.1 h.2]
    rfl

theorem unescape_units (h : ∀ u ∈ units, u.Valid) (hbyte : ∀ u ∈ units, ∀ c ∈ u.chars, c.toNat < 256) :
    Literal.unescape (units.flatMap StringUnit.chars) = units.map StringUnit.byte := by
  have hafter (units : List StringUnit) (h : ∀ u ∈ units, u.Valid)
      (hbyte : ∀ u ∈ units, ∀ c ∈ u.chars, c.toNat < 256) (done : Bytes) :
      Literal.unescapeAfter (units.flatMap StringUnit.chars) done =
        done.reverse ++ units.map StringUnit.byte := by
    induction units generalizing done with
    | nil => simp [Literal.unescapeAfter]
    | cons u units ih =>
      rw [flatMap_cons, unescapeAfter_unit (h u mem_cons_self) (hbyte u mem_cons_self),
        ih (fun v hv => h v (.tail _ hv)) fun v hv => hbyte v (.tail _ hv)]
      simp
  exact hafter units h hbyte []

/-! ## Files -/

theorem toNat_charOfByte (b : UInt8) : (Text.charOfByte b).toNat = b.toNat := by
  have hvalid : b.toNat.isValidChar := .inl (Nat.lt_trans b.toNat_lt (by decide))
  rw [Text.charOfByte, Char.ofNat, dif_pos hvalid]
  rfl

/-- A quote is no part of an order mark, so what follows it is decoded byte by byte. -/
theorem decode_append (before rest : Bytes) : Text.decode (before ++ 0x22 :: rest) =
      Text.decode before ++ (0x22 :: rest).map Text.charOfByte := by
  have hdrop : Text.dropOrderMark (before ++ 0x22 :: rest) =
      Text.dropOrderMark before ++ 0x22 :: rest := by
    rcases before with _ | ⟨a, _ | ⟨b, _ | ⟨c, before⟩⟩⟩
    · rfl
    · simp [Text.dropOrderMark]
    · simp [Text.dropOrderMark]
    · simp only [Text.dropOrderMark, cons_append]
      split <;> split <;> simp_all
  rw [Text.decode, hdrop, map_append, Text.decode]

theorem primary_quoted {t : Token} {s : ParserState} {rest : List Token} {cs : List Char}
    (hkind : t.kind = .stringLit) (htext : t.text = String.ofList ('"' :: (cs ++ ['"'])))
    (hs : s.stream.rest = t :: rest) (n : Nat) :
    Parser.primary (n + 1) s = .ok (.literal ⟨s.nextId, t.pos⟩ (.string (Literal.unescape cs)))
      { s with stream := s.stream.advance, nextId := s.nextId + 1 } := by
  have hpeek : s.stream.peek = t := by rw [TokenStream.peek, hs]; rfl
  have hbody : Literal.stringBody t.text.toList = cs := by
    simp [htext, Literal.stringBody]
  simp [Parser.primary, Parser.peek, Parser.leaf, Parser.next, Parser.node, Parser.freshId, Bind.bind,
    EStateM.bind, Pure.pure, EStateM.pure, MonadState.get, getThe, MonadStateOf.get, EStateM.get, MonadStateOf.set, EStateM.set,
    hpeek, hkind, hbody]

/-! ## Code -/

theorem Accepted.gen_literal {engine : EngineTable} {program : Program} (h : Accepted engine program)
    {node : Node} {bytes : Bytes}
    (he : (check engine program).analysis.HasExpr program (.literal node (.string bytes))) (f : Frame)
    (s : GenState) : (∃ s', Gen.expr (context engine program) f (.literal node (.string bytes)) s =
      .ok ([.instr (.const (.string bytes))], s')) ∨
    ∃ size, Gen.expr (context engine program) f (.literal node (.string bytes)) s =
      .error (.overflow size) := by
  obtain ⟨type, value, hrule, -, hvalue⟩ := h.programOk.exprOk he _ (Expr.self_mem_parts _)
  cases hrule
  have hmeets : Gen.Ends Gen.Overflows (Gen.expr (context engine program) f (.literal node (.string bytes))) s
      fun ops _ => ops = [.instr (.const (.string bytes))] := by
    have hget : (context engine program).analysis.consts.get? node.id = some (.string bytes) := hvalue
    simp only [Gen.expr, Expr.id, Expr.node, hget]
    exact Gen.meets_constant (c := context engine program) rfl
  rcases hmeets.ok_or_overflow with ⟨ops, s', hok, rfl⟩ | hfault
  · exact .inl ⟨s', hok⟩
  · exact .inr hfault

theorem const_linked {code : Code} {o : Object} {bytes : Bytes} {before after : List Op}
    (h : link code = .ok o) (hlines : code.lines = before ++ .instr (.const (.string bytes)) :: after) :
    (o.bytes.drop (headerSize + opsSize before)).take (4 + bytes.length) =
      [Opcode.const, TypeByte.string] ++ bigEndian16 bytes.length.toUInt16 ++ bytes ∧
    bigEndianValue (bigEndian16 bytes.length.toUInt16) = bytes.length := by
  obtain ⟨-, body, hbody, rfl⟩ := link_eq_ok.mp h
  obtain ⟨encoded, hencoded, htake⟩ := encodeOps_split (hlines ▸ hbody)
  have hshort : bytes.length < 65536 := by
    by_contra hlong
    rw [encodeOp, encodeInstr, encodeConstant, if_neg hlong] at hencoded
    cases hencoded
  rw [encodeOp, encodeInstr, encodeConstant, if_pos hshort] at hencoded
  refine ⟨?_, ?_⟩
  · rw [← drop_drop, drop_header, Except.ok.inj hencoded]
    exact htake
  · have hlength : bytes.length.toUInt16.toNat = bytes.length := Nat.mod_eq_of_lt hshort
    simp only [bigEndianValue, bigEndian16, foldl_cons, foldl_nil, UInt16.toNat_toUInt8,
      UInt16.toNat_shiftRight, Nat.shiftRight_eq_div_pow, hlength, UInt16.reduceToNat, Nat.reduceMod,
      Nat.reducePow]
    omega

/-- **The bytes of a string are kept from the script file to the object.** A spelling of bytes, wherever it
stands in a file, is decoded to a literal. A lexer that comes to it reads one token, a parser that comes to
the token reads the constant of the bytes, the code of that constant in a function is one instruction, and
in an object the instruction carries the number of the bytes and the bytes. So do the lines, wherever they
stand in an object, that are generated for what is parsed from the token at the literal in the file. -/
theorem string_bytes_kept {lit bytes : Bytes} (hunits : ∀ u ∈ units, u.Valid)
    (hlit : lit.map Text.charOfByte = quoted units) (hbytes : units.map StringUnit.byte = bytes)
    (hshort : bytes.length ≤ 65535) : (∀ before after : Bytes, Text.decode (before ++ (lit ++ after)) =
      Text.decode before ++ (quoted units ++ after.map Text.charOfByte)) ∧ (∀ file place after, ∃ t,
      scanToken file ⟨quoted units ++ after, place⟩ = (.ok t, ⟨after, place.past (quoted units)⟩) ∧
      t.kind = .stringLit ∧ t.text = String.ofList (quoted units)) ∧
    (∀ (t : Token) (s : ParserState) rest n, t.kind = .stringLit →
      t.text = String.ofList (quoted units) → s.stream.rest = t :: rest →
      Parser.primary (n + 1) s = .ok (.literal ⟨s.nextId, t.pos⟩ (.string bytes))
        { s with stream := s.stream.advance, nextId := s.nextId + 1 }) ∧
    (∀ engine program node, Accepted engine program →
      (check engine program).analysis.HasExpr program (.literal node (.string bytes)) → ∀ f s,
      (∃ s', Gen.expr (Accepted.context engine program) f (.literal node (.string bytes)) s =
        .ok ([.instr (.const (.string bytes))], s')) ∨
      ∃ size, Gen.expr (Accepted.context engine program) f (.literal node (.string bytes)) s =
        .error (.overflow size)) ∧
    ((encodeInstr (.const (.string bytes))).isOk = true ∧
      ∀ code o before after, link code = .ok o →
      code.lines = before ++ .instr (.const (.string bytes)) :: after →
      (o.bytes.drop (headerSize + opsSize before)).take (4 + bytes.length) =
        [Opcode.const, TypeByte.string] ++ bigEndian16 bytes.length.toUInt16 ++ bytes ∧
      bigEndianValue (bigEndian16 bytes.length.toUInt16) = bytes.length) ∧
    ∀ (before after : Bytes) file place, ∃ t,
      scanToken file ⟨(Text.decode (before ++ (lit ++ after))).drop (Text.decode before).length, place⟩ =
        (.ok t, ⟨after.map Text.charOfByte, place.past (quoted units)⟩) ∧
      ∀ (s : ParserState) rest n, s.stream.rest = t :: rest → ∃ node s',
        Parser.primary (n + 1) s = .ok (.literal node (.string bytes)) s' ∧
        ∀ engine program, Accepted engine program →
          (check engine program).analysis.HasExpr program (.literal node (.string bytes)) → ∀ f g ops g',
          Gen.expr (Accepted.context engine program) f (.literal node (.string bytes)) g = .ok (ops, g') →
          ∀ code o pre post, link code = .ok o → code.lines = pre ++ (ops ++ post) →
            (o.bytes.drop (headerSize + opsSize pre)).take (4 + bytes.length) =
              [Opcode.const, TypeByte.string] ++ bigEndian16 bytes.length.toUInt16 ++ bytes := by
  have hbyte : ∀ u ∈ units, ∀ c ∈ u.chars, c.toNat < 256 := by
    intro u hu c hc
    have hmem : c ∈ lit.map Text.charOfByte := by
      rw [hlit, quoted]
      simp only [mem_cons, mem_append, mem_flatMap]
      exact .inr (.inl ⟨u, hu, hc⟩)
    obtain ⟨b, -, rfl⟩ := mem_map.mp hmem
    rw [toNat_charOfByte]
    exact b.toNat_lt
  obtain ⟨b, lit, rfl⟩ : ∃ b rest, lit = b :: rest :=
    exists_cons_of_ne_nil fun hnil => by simp [hnil, quoted] at hlit
  obtain rfl : b = 0x22 := by
    have hb : Text.charOfByte b = '"' := (List.cons.inj hlit).1
    have hn := toNat_charOfByte b
    rw [hb] at hn
    exact UInt8.toNat_inj.mp hn.symm
  have hdecode (before after : Bytes) : Text.decode (before ++ (0x22 :: lit ++ after)) =
      Text.decode before ++ (quoted units ++ after.map Text.charOfByte) := by
    rw [cons_append, decode_append, ← cons_append, map_append, hlit]
  have hparse (t : Token) (s : ParserState) (rest : List Token) (n : Nat) (hkind : t.kind = .stringLit)
      (htext : t.text = String.ofList (quoted units)) (hs : s.stream.rest = t :: rest) :
      Parser.primary (n + 1) s = .ok (.literal ⟨s.nextId, t.pos⟩ (.string bytes))
        { s with stream := s.stream.advance, nextId := s.nextId + 1 } := by
    rw [primary_quoted hkind htext hs, unescape_units hunits hbyte, hbytes]
  refine ⟨hdecode, fun file place after => scanToken_quoted hunits file, hparse,
    fun engine program node h he f s => h.gen_literal he f s,
    ⟨?_, fun code o before after h hlines => const_linked h hlines⟩, fun before after file place => ?_⟩
  · rw [encodeInstr, encodeConstant, if_pos (by omega)]
    rfl
  · obtain ⟨t, hscan, hkind, htext⟩ := @scanToken_quoted units (after.map Text.charOfByte) place hunits file
    refine ⟨t, by rw [hdecode, drop_left, hscan], fun s rest n hs =>
      ⟨_, _, hparse t s rest n hkind htext hs, ?_⟩⟩
    intro engine program h he f g ops g' hgen code o pre post hlink hlines
    obtain rfl : ops = [.instr (.const (.string bytes))] := by
      rcases h.gen_literal he f g with ⟨g'', hrun⟩ | ⟨size, hrun⟩
      · exact (Prod.mk.inj (Except.ok.inj (hgen.symm.trans hrun))).1
      · cases hgen.symm.trans hrun
    exact (const_linked hlink hlines).1

/-- A letter, a byte in hexadecimal with both cases, a line end and a high byte as itself, from an
assignment in a file to the object that pushes it. -/
theorem string_bytes_kept_mixed :
    (∃ t, scanToken 0 ⟨(Text.decode ([0x73, 0x3D] ++
        ([0x22, 0x61, 0x5C, 0x78, 0x66, 0x46, 0x5C, 0x6E, 0xE9, 0x22] ++ [0x3B]))).drop 2, {}⟩ =
          (.ok t, ⟨[';'], ({} : Place).past
            (quoted [.raw 'a', .hex 'f' 'F', .short 'n', .raw (Text.charOfByte 0xE9)])⟩) ∧
      ∀ s : ParserState, s.stream.rest = [t] → ∃ node s', Parser.primary 1 s =
        .ok (.literal node (.string [0x61, 0xFF, 0x0A, 0xE9])) s') ∧
    ∃ o, link (stringCode [0x61, 0xFF, 0x0A, 0xE9]) = .ok o ∧
      (o.bytes.drop 13).take 8 = [0x04, 0x05, 0x00, 0x04, 0x61, 0xFF, 0x0A, 0xE9] := by
  have hunits : ∀ u ∈ [StringUnit.raw 'a', .hex 'f' 'F', .short 'n', .raw (Text.charOfByte 0xE9)],
      u.Valid := by
    intro u hu
    simp only [mem_cons, not_mem_nil, or_false] at hu
    rcases hu with rfl | rfl | rfl | rfl
    · exact (by decide : 'a' ≠ '"' ∧ 'a' ≠ '\\' ∧ 'a' ≠ '\n')
    · exact ⟨rfl, rfl⟩
    · exact .inl rfl
    · exact (by decide : Text.charOfByte 0xE9 ≠ '"' ∧ Text.charOfByte 0xE9 ≠ '\\' ∧
        Text.charOfByte 0xE9 ≠ '\n')
  have hlit : [0x22, 0x61, 0x5C, 0x78, 0x66, 0x46, 0x5C, 0x6E, 0xE9, 0x22].map Text.charOfByte =
      quoted [.raw 'a', .hex 'f' 'F', .short 'n', .raw (Text.charOfByte 0xE9)] := by decide
  have hbytes : [StringUnit.raw 'a', .hex 'f' 'F', .short 'n', .raw (Text.charOfByte 0xE9)].map
      StringUnit.byte = [0x61, 0xFF, 0x0A, 0xE9] := by decide
  obtain ⟨-, -, -, -, ⟨-, hlinked⟩, hkept⟩ := string_bytes_kept hunits hlit hbytes (by decide)
  obtain ⟨t, hscan, hparse⟩ := hkept [0x73, 0x3D] [0x3B] 0 {}
  obtain ⟨o, ho, -⟩ := @listInstructions_stringCode [0x61, 0xFF, 0x0A, 0xE9] (by decide)
  refine ⟨⟨t, hscan, fun s hs => ?_⟩, o, ho, (hlinked _ o [.mark 0] [] ho rfl).1⟩
  obtain ⟨node, s', hrun, -⟩ := hparse s [] 0 hs
  exact ⟨node, s', hrun⟩

end Nwscript
