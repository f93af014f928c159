import Nwscript.Proofs.Token.Recovery
import Nwscript.Proofs.Unit.Strings

/-! # Numerals

A numeral is read up to the character that ends it. It is an integer literal if its value is in the range
of its notation, and one error otherwise; the parser takes every integer literal, and the literals reach
all integers. -/

open List Option

namespace Nwscript

/-! ## Notations -/

/-- The notations of integers. The letter of a hexadecimal or binary one may be a capital. -/
inductive Radix where
  | decimal
  | hex (capital : Bool)
  | binary (capital : Bool)

namespace Radix

def lead : Radix → List Char
  | decimal => []
  | hex capital => ['0', if capital then 'X' else 'x']
  | binary capital => ['0', if capital then 'B' else 'b']

def base : Radix → Nat
  | decimal => 10
  | hex _ => 16
  | binary _ => 2

def isDigit : Radix → Char → Bool
  | decimal => Decimal.isDigit
  | hex _ => isHexDigit
  | binary _ => fun c => c = '0' || c = '1'

def bound : Radix → Nat
  | decimal => 2 ^ 31 + 1
  | hex _ | binary _ => 2 ^ 32

end Radix

def numeralValue (base : Nat) (digits : List Char) : Nat :=
  digits.foldl (fun n c => n * base + digitOf c) 0

/-- The digits belong to the notation; one that is marked by letters may lack them. -/
def Radix.Digits (r : Radix) (digits : List Char) : Prop :=
  (∀ x ∈ digits, r.isDigit x = true) ∧ (r = .decimal → digits ≠ [])

/-- The digits are there, and the number can be written so. -/
def Radix.InRange (r : Radix) (digits : List Char) : Prop :=
  digits ≠ [] ∧ numeralValue r.base digits < r.bound

variable {cs tail digits : List Char} {c : Cursor} {file : FileId} {r : Radix}

/-! ## Runs of characters -/

def upcoming (cs : List Char) : Char := cs.headD '\x00'

def EndsNumber (tail : List Char) : Prop := continuesName (upcoming tail) = false ∧ upcoming tail ≠ '.'

theorem EndsNumber.ne (h : EndsNumber tail) {x : Char} (hx : continuesName x = true) : upcoming tail ≠ x := by
  intro heq
  rw [EndsNumber, heq, hx] at h
  cases h.1

theorem Radix.continuesName_of_isDigit {x : Char} (h : r.isDigit x = true) :
    continuesName x = true := by
  have hle (a b : Char) : a ≤ b ↔ a.toNat ≤ b.toNat := Iff.rfl
  cases r with
  | decimal | hex _ =>
    simp only [isDigit, isHexDigit, Decimal.isDigit, Bool.and_eq_true, Bool.or_eq_true, decide_eq_true_eq,
      hle, Char.reduceToNat] at h
    simp only [continuesName, isLetter, Decimal.isDigit, Bool.and_eq_true, Bool.or_eq_true,
      decide_eq_true_eq, hle, Char.reduceToNat]
    omega
  | binary _ =>
    have hx : x = '0' ∨ x = '1' := by simpa [isDigit] using h
    rcases hx with rfl | rfl <;> rfl

theorem EndsNumber.no_digit (h : EndsNumber tail) (r : Radix) : r.isDigit (upcoming tail) = false :=
  Bool.eq_false_iff.mpr fun hdigit => h.ne (Radix.continuesName_of_isDigit hdigit) rfl

namespace Cursor

def behind (c : Cursor) (cs tail : List Char) : Cursor := ⟨tail, c.place.past cs⟩

theorem past_behind (h : c.rest = cs ++ tail) : c.Past cs (c.behind cs tail) := ⟨h, rfl⟩

theorem behind_behind (cs ds tail tail' : List Char) :
    (c.behind cs tail').behind ds tail = c.behind (cs ++ ds) tail := by
  simp [behind, Place.past_append]

@[simp] theorem first_behind : (c.behind cs tail).first = upcoming tail := rfl

theorem bump_eq {x : Char} (h : c.rest = x :: tail) : c.bump = c.behind [x] tail := by
  unfold bump
  rw [h]
  rfl

theorem skipWhile_eq {p : Char → Bool} (h : c.rest = cs ++ tail) (hcs : ∀ x ∈ cs, p x = true)
    (htail : p (upcoming tail) = false) : c.skipWhile p = c.behind cs tail := by
  have hstop : tail.takeWhile p = [] := by
    cases tail with
    | nil => rfl
    | cons x tail => exact takeWhile_cons_of_neg (Bool.eq_false_iff.mp htail)
  have hpast := c.past_skipWhile p
  rw [h, takeWhile_append_of_pos hcs, hstop, append_nil] at hpast
  have hrest : (c.skipWhile p).rest = tail := append_cancel_left (hpast.rest.symm.trans h)
  rw [behind, ← hrest, ← hpast.place]

end Cursor

open Cursor

/-! ## Numbers -/

theorem scanDecimal_digits (h : c.rest = digits ++ tail)
    (hdigits : ∀ x ∈ digits, Decimal.isDigit x = true) (htail : EndsNumber tail) :
    scanDecimal c = (.intLit, c.behind digits tail) := by
  have hskip := skipWhile_eq h hdigits (htail.no_digit .decimal)
  simp only [scanDecimal, hskip, first_behind, if_neg htail.2]
  simp [htail.ne (x := 'f') rfl, htail.ne (x := 'F') rfl]

/-- Digits do not begin a numeral of another notation. -/
theorem unmarked (hdigits : ∀ x ∈ digits, Decimal.isDigit x = true)
    (htail : EndsNumber tail) (mark : Char) (rest : List Char)
    (h : digits ++ tail = '0' :: mark :: rest) : mark ∉ ['x', 'X', 'b', 'B'] := by
  intro hmark
  have hname : continuesName mark = true := by fin_cases hmark <;> rfl
  cases digits with
  | nil =>
    obtain rfl : tail = '0' :: mark :: rest := h
    exact htail.ne (x := '0') rfl rfl
  | cons d digits =>
    cases digits with
    | nil =>
      obtain rfl : tail = mark :: rest := (List.cons.inj h).2
      exact htail.ne hname rfl
    | cons d' digits =>
      obtain rfl : d' = mark := (List.cons.inj (List.cons.inj h).2).1
      have hd := hdigits d' (by simp)
      revert hd
      fin_cases hmark <;> decide

/-! ## Values -/

theorem digitsValue?_eq {radix : Nat} {digits : List Char} (acc : Nat)
    (h : ∀ x ∈ digits, Text.digitValue? radix x = some (digitOf x)) :
    Text.digitsValue? radix acc digits =
      some (digits.foldl (fun n c => n * radix + digitOf c) acc) := by
  induction digits generalizing acc with
  | nil => rfl
  | cons x digits ih =>
    rw [Text.digitsValue?, h x mem_cons_self]
    exact ih _ fun y hy => h y (.tail _ hy)

namespace Radix

theorem digitValue?_eq {x : Char} (h : r.isDigit x = true) :
    Text.digitValue? r.base x = some (digitOf x) ∧ x ≠ '+' := by
  have hplus : r.isDigit '+' = false := by cases r <;> rfl
  refine ⟨?_, fun hx => by rw [hx, hplus] at h; cases h⟩
  have hle (a b : Char) : a ≤ b ↔ a.toNat ≤ b.toNat := Iff.rfl
  cases r with
  | decimal | hex _ =>
    simp only [isDigit, isHexDigit, Decimal.isDigit, Bool.and_eq_true, Bool.or_eq_true,
      decide_eq_true_eq, hle, Char.reduceToNat] at h
    simp only [Text.digitValue?, base, digitOf, hle, Char.reduceToNat]
    grind
  | binary mark =>
    have hx : x = '0' ∨ x = '1' := by simpa [isDigit] using h
    rcases hx with rfl | rfl <;> rfl

theorem numeralBelow?_eq (h : ∀ x ∈ digits, r.isDigit x = true) (hne : digits ≠ []) :
    Text.numeralBelow? r.base r.bound digits =
      if numeralValue r.base digits < r.bound then some (numeralValue r.base digits) else none := by
  have hvalue := digitsValue?_eq 0 fun x hx => (digitValue?_eq (h x hx)).1
  have hnumeral : Text.numeral? r.base digits = Text.digitsValue? r.base 0 digits := by
    obtain ⟨x, digits, rfl⟩ := exists_cons_of_ne_nil hne
    have hx := (digitValue?_eq (h x mem_cons_self)).2
    unfold Text.numeral?
    split <;> simp_all
  rw [Text.numeralBelow?, hnumeral, hvalue]
  rfl

theorem intValue?_lead (h : r.Digits digits) : Literal.intValue? (r.lead ++ digits) =
    (Text.numeralBelow? r.base r.bound digits).map Literal.wordOfNat := by
  cases r with
  | decimal =>
    have hlead := @unmarked [] _ h.1 ⟨rfl, by decide⟩
    rw [append_nil] at hlead
    rw [lead, nil_append]
    unfold Literal.intValue?
    split
    case h_5 => rfl
    all_goals exact absurd (hlead _ _ rfl) (by decide)
  | hex capital | binary capital => cases capital <;> rfl

theorem intValue?_of_inRange (h : r.Digits digits) (hrange : r.InRange digits) :
    Literal.intValue? (r.lead ++ digits) = some (Literal.wordOfNat (numeralValue r.base digits)) := by
  rw [intValue?_lead h, numeralBelow?_eq h.1 hrange.1, if_pos hrange.2]
  rfl

theorem intValue?_of_not_inRange (h : r.Digits digits) (hrange : ¬r.InRange digits) :
    Literal.intValue? (r.lead ++ digits) = none := by
  rw [intValue?_lead h]
  by_cases hne : digits = []
  · subst hne
    rfl
  · rw [numeralBelow?_eq h.1 hne, if_neg fun hlt => hrange ⟨hne, hlt⟩]
    rfl

end Radix

/-! ## Reading integers -/

section Integers

variable (h : r.Digits digits) (htail : EndsNumber tail)
  (hrest : c.rest = r.lead ++ digits ++ tail)

include h htail hrest

/-- A numeral is read to its end. Digits are missing only behind letters. -/
theorem scanNumberForm_int : ∃ fault, scanNumberForm c =
    (if digits = [] then .error fault else .ok .intLit, c.behind (r.lead ++ digits) tail) := by
  have hradix (mark : Char) (isDigit : Char → Bool) (fault : NumberFault)
      (hrest : c.rest = ['0', mark] ++ (digits ++ tail)) (hds : ∀ x ∈ digits, isDigit x = true)
      (hend : isDigit (upcoming tail) = false) :
      scanRadix isDigit fault (c.bumpMany 2) =
        (if digits = [] then .error fault else .ok .intLit, c.behind (['0', mark] ++ digits) tail) := by
    have hlead : c.bumpMany 2 = c.behind ['0', mark] (digits ++ tail) := by
      rw [bumpMany, bumpMany, bumpMany, bump_eq hrest, bump_eq rfl]
      rfl
    have hskip := skipWhile_eq (c := c.behind ['0', mark] (digits ++ tail)) rfl hds hend
    have hlength : Text.utf8Length digits = 0 ↔ digits = [] := by
      cases digits with
      | nil => simp
      | cons x digits =>
        have := x.utf8Size_pos
        rw [Text.utf8Length_cons]
        simp
        omega
    rw [hlead, scanRadix, hskip, behind_behind]
    simp only [behind, Place.past_append, Place.offset_past, Nat.add_eq_left, hlength]
  have hend := htail.no_digit r
  cases r with
  | decimal =>
    have hlead := unmarked h.1 htail
    rw [← show c.rest = digits ++ tail from hrest] at hlead
    refine ⟨.outOfRange, ?_⟩
    rw [if_neg (h.2 rfl)]
    unfold scanNumberForm
    split
    case h_5 =>
      rw [scanDecimal_digits hrest h.1 htail]
    all_goals next hmarked => exact absurd (hlead _ _ hmarked) (by decide)
  | hex capital =>
    have hform : scanNumberForm c = scanRadix isHexDigit .missingHexDigits (c.bumpMany 2) := by
      cases capital <;> simp [scanNumberForm, hrest, Radix.lead]
    exact ⟨_, hform.trans (hradix _ _ _ hrest h.1 hend)⟩
  | binary capital =>
    have hform : scanNumberForm c =
        scanRadix (fun c => c = '0' || c = '1') .missingBinaryDigits (c.bumpMany 2) := by
      cases capital <;> simp [scanNumberForm, hrest, Radix.lead]
    exact ⟨_, hform.trans (hradix _ _ _ hrest h.1 hend)⟩

theorem scanNumber_int : (r.InRange digits →
      scanNumber c = (.ok .intLit, c.behind (r.lead ++ digits) tail)) ∧
    (¬r.InRange digits → ∃ fault, scanNumber c = (.error fault, c.behind (r.lead ++ digits) tail)) := by
  obtain ⟨fault, hform⟩ := scanNumberForm_int h htail hrest
  have hvalid : numberInRange .intLit (r.lead ++ digits) =
      (Literal.intValue? (r.lead ++ digits)).isSome := rfl
  refine ⟨fun hrange => ?_, fun hrange => ?_⟩
  · rw [if_neg hrange.1] at hform
    unfold scanNumber
    simp only [hform, first_behind, htail.1, (past_behind hrest).textTo, hvalid,
      Radix.intValue?_of_inRange h hrange, isSome_some, Bool.false_eq_true, if_false, if_true]
  · by_cases hnil : digits = []
    · rw [if_pos hnil] at hform
      exact ⟨fault, by rw [scanNumber, hform]⟩
    · rw [if_neg hnil] at hform
      refine ⟨.outOfRange, ?_⟩
      unfold scanNumber
      simp only [hform, first_behind, htail.1, (past_behind hrest).textTo, hvalid,
        Radix.intValue?_of_not_inRange h hrange, Bool.false_eq_true, if_false, isSome_none]

end Integers

theorem Radix.Digits.exists_digit (h : r.Digits digits) :
    ∃ x rest, r.lead ++ digits = x :: rest ∧ Decimal.isDigit x = true := by
  cases r with
  | decimal =>
    obtain ⟨x, rest, rfl⟩ := exists_cons_of_ne_nil (h.2 rfl)
    exact ⟨x, rest, rfl, h.1 x mem_cons_self⟩
  | hex capital | binary capital => exact ⟨'0', _, rfl, rfl⟩

theorem scanToken_digit {x : Char} {rest : List Char} (hrest : c.rest = x :: rest)
    (hx : Decimal.isDigit x = true) (file : FileId) : scanToken file c = scanLexeme file x c := by
  have hcont : continuesName x = true := Radix.continuesName_of_isDigit (r := .decimal) hx
  have hspace : isSpace x = false := by
    refine Bool.eq_false_iff.mpr fun h => ?_
    simp only [isSpace, Bool.or_eq_true, decide_eq_true_eq] at h
    rcases h with ((rfl | rfl) | rfl) | rfl <;> cases hcont
  have hslash : x ≠ '/' := by
    rintro rfl
    cases hcont
  have hgap : skipGap c.rest .space c.place = (.ok (), c) := by
    obtain ⟨cs, place⟩ := c
    obtain rfl : cs = x :: rest := hrest
    rw [skipGap, hspace]
    · rfl
    · exact fun _ h _ => hslash h
    · exact fun _ h _ => hslash h
  rw [scanToken, hgap]
  simp only [hrest]

/-! ## Tokens -/

theorem Lexer.Yields.exists_scanToken {l : Lexer} {rs : List (Except LexError Token)} (h : l.Yields rs)
    {result : Except LexError Token} (hr : result ∈ rs) : ∃ c, (scanToken l.file c).1 = result := by
  induction h with
  | done _ => cases hr
  | more hnext _ ih =>
    obtain ⟨-, hscan, hl⟩ := Lexer.next?_some hnext
    rcases mem_cons.mp hr with rfl | hr
    · exact ⟨_, congrArg Prod.fst hscan⟩
    · obtain ⟨c, hc⟩ := ih hr
      rw [hl] at hc
      exact ⟨c, hc⟩

theorem inRange_of_scanNumber {stop : Cursor} {kind : TokenKind} (h : scanNumber c = (.ok kind, stop)) :
    numberInRange kind (c.textTo stop) = true := by
  unfold scanNumber at h
  split at h
  · cases h
  · split at h
    · cases h
    · split at h
      · next hrange =>
        obtain ⟨hkind, rfl⟩ := Prod.mk.inj h
        cases hkind
        exact hrange
      · cases h

theorem intValue?_of_scanToken {t : Token} (h : (scanToken file c).1 = .ok t) (hkind : t.kind = .intLit) :
    ∃ value, Literal.intValue? t.text.toList = some value := by
  unfold scanToken at h
  split at h
  · cases h
  · next start _ =>
    split at h
    · cases h
      cases hkind
    · unfold scanLexeme at h
      split at h
      · split at h
        · next kind stop hscan =>
          cases h
          obtain rfl : kind = .intLit := hkind
          rw [tokenTo, String.toList_ofList]
          exact isSome_iff_exists.mp (inRange_of_scanNumber hscan)
        · cases h
      · split at h
        · split at h
          · cases h
            cases hkind
          · cases h
        · split at h
          · split at h
            · next hscan =>
              cases h
              obtain ⟨lead, tail, hframed, -⟩ := scanDirective_frames hscan
              obtain rfl : _ = TokenKind.intLit := hkind
              cases hframed
            · cases h
          · split at h
            · cases h
              simp only [tokenTo, nameKind] at hkind
              split at hkind <;> cases hkind
            · split at h
              · cases h
                cases hkind
              · cases h

/-! ## The parser -/

namespace Parser

theorem primary_intLit {s : ParserState} {value : Int32} (hkind : s.stream.peek.kind = .intLit)
    (hvalue : Literal.intValue? s.stream.peek.text.toList = some value) (n : Nat) :
    ∃ node s', primary (n + 1) s = .ok (.literal node (.int value)) s' := by
  have hrun : primary (n + 1) s = leaf s.stream.peek (.int value) s := by
    rw [primary]
    simp only [peek, bind, EStateM.bind, MonadState.get, getThe, MonadStateOf.get, EStateM.get, pure, EStateM.pure,
      hkind, hvalue]
  exact ⟨_, _, hrun⟩

theorem acceptSymbol_eq (symbol : Symbol) (s : ParserState) : acceptSymbol symbol s =
    .ok (s.stream.accept (.symbol symbol)).1 { s with stream := (s.stream.accept (.symbol symbol)).2 } := rfl

theorem component_of_accept {s s₁ : ParserState} {negative : Bool} {value : Int32}
    (haccept : acceptSymbol .minus s = .ok negative s₁) (hkind : s₁.stream.peek.kind = .intLit)
    (hvalue : Literal.intValue? s₁.stream.peek.text.toList = some value) : ∃ s', component s =
      .ok (if negative then (Single.ofInt value.toInt).neg else Single.ofInt value.toInt) s' := by
  have hrun : component s = (do
      let _ ← next
      return if negative then (Single.ofInt value.toInt).neg else Single.ofInt value.toInt : Parser Single) s₁ := by
    rw [component]
    simp only [bind, EStateM.bind, haccept, peek, MonadState.get, getThe, MonadStateOf.get, EStateM.get, pure,
      EStateM.pure, hkind, hvalue, map_some]
  exact ⟨_, hrun⟩

theorem component_intLit {s : ParserState} {value : Int32} (hkind : s.stream.peek.kind = .intLit)
    (hvalue : Literal.intValue? s.stream.peek.text.toList = some value) :
    ∃ s', component s = .ok (Single.ofInt value.toInt) s' := by
  refine @component_of_accept s s false value ?_ hkind hvalue
  rw [acceptSymbol_eq, TokenStream.accept, TokenStream.peekKind, hkind]
  rfl

theorem component_minus_intLit {s : ParserState} {value : Int32}
    (hminus : s.stream.peekKind = .symbol .minus) (hkind : s.stream.advance.peek.kind = .intLit)
    (hvalue : Literal.intValue? s.stream.advance.peek.text.toList = some value) :
    ∃ s', component s = .ok (Single.ofInt value.toInt).neg s' := by
  refine @component_of_accept s { s with stream := s.stream.advance } true value ?_ hkind hvalue
  rw [acceptSymbol_eq, TokenStream.accept, if_pos hminus]

end Parser

/-! ## All integers -/

theorem toInt_wordOfNat (n : Nat) : (Literal.wordOfNat n).toInt = Int.bmod n (2 ^ 32) := by
  show (BitVec.ofNat 32 n).toInt = _
  exact BitVec.toInt_ofNat ..

theorem numeralValue_toDigits (n : Nat) : Radix.decimal.Digits (Nat.toDigits 10 n) ∧
    numeralValue 10 (Nat.toDigits 10 n) = n := by
  obtain ⟨hvalue, hdigits⟩ := Text.digitsValue?_toDigits (by decide : 1 < 10) (by decide) n
  have hdigit : ∀ d : Fin 10, Decimal.isDigit d.val.digitChar = true := by decide
  have hall : ∀ x ∈ Nat.toDigits 10 n, Radix.decimal.isDigit x = true := by
    intro x hx
    obtain ⟨d, hd, rfl⟩ := hdigits x hx
    exact hdigit ⟨d, hd⟩
  refine ⟨⟨hall, fun _ => Nat.toDigits_ne_nil⟩, ?_⟩
  have hsome := digitsValue?_eq 0 fun x hx => (Radix.digitValue?_eq (hall x hx)).1
  exact Option.some.inj (hsome.symm.trans hvalue)

/-- An integer is that of its digits, or of the digits of its opposite with a minus sign. -/
theorem wordOfNat_natAbs (v : Int32) : Literal.wordOfNat v.toInt.natAbs = v ∨
    -Literal.wordOfNat v.toInt.natAbs = v := by
  have hlo := v.le_toInt
  have hhi := v.toInt_lt
  rcases Int.natAbs_eq v.toInt with habs | habs
  · refine .inl (Int32.toInt_inj.mp ?_)
    rw [toInt_wordOfNat, ← habs, Int.bmod_eq_of_le] <;> omega
  · refine .inr (Int32.toInt_inj.mp ?_)
    rw [Int32.toInt_neg, toInt_wordOfNat]
    -- The opposite of the least integer is out of range and wraps to it.
    by_cases hleast : v.toInt.natAbs = 2 ^ 31
    · rw [habs, hleast]
      decide
    · rw [Int.bmod_eq_of_le (n := v.toInt.natAbs) (by omega) (by omega), ← habs, Int.bmod_eq_of_le] <;> omega

/-- **Integer literals are read exactly in their range.** A numeral that nothing continues is one token
if its digits are there and its value is in the range of its notation, and one error otherwise; the value
of the token is that of the digits, wrapped to 32 bits. The parser takes every integer literal that was
read, in a vector also behind a minus sign, and every integer is the value of decimal digits with a minus
sign or without. -/
theorem int_literals_exact :
    (∀ (r : Radix) (digits tail : List Char) (c : Cursor) (file : FileId), r.Digits digits →
      EndsNumber tail → c.rest = r.lead ++ digits ++ tail →
      (r.InRange digits → ∃ t, scanToken file c = (.ok t, c.behind (r.lead ++ digits) tail) ∧
        t.kind = .intLit ∧ t.text = String.ofList (r.lead ++ digits) ∧
        ∃ value, Literal.intValue? t.text.toList = some value ∧
          value.toInt = Int.bmod (numeralValue r.base digits) (2 ^ 32)) ∧
      (¬r.InRange digits → ∃ fault, scanToken file c =
        (.error ⟨.malformedNumber fault (String.ofList (r.lead ++ digits)), c.place.pos file⟩,
          (c.behind (r.lead ++ digits) tail).lineEnd))) ∧
    (∀ (text : String) (file : FileId) (t : Token), .ok t ∈ lex text file → t.kind = .intLit →
      ∃ value, Literal.intValue? t.text.toList = some value ∧ ∀ s : ParserState, (s.stream.peek = t →
        (∀ n, ∃ node s', Parser.primary (n + 1) s = .ok (.literal node (.int value)) s') ∧
        ∃ s', Parser.component s = .ok (Single.ofInt value.toInt) s') ∧
        (s.stream.peekKind = .symbol .minus → s.stream.advance.peek = t →
          ∃ s', Parser.component s = .ok (Single.ofInt value.toInt).neg s')) ∧
    ∀ v : Int32, ∃ digits, Radix.decimal.Digits digits ∧ Radix.decimal.InRange digits ∧
      ∃ value, Literal.intValue? digits = some value ∧ ∀ (known : String → Option Value) (node sign : Node),
        evalConst known (.literal node (.int value)) = .ok (.int v) ∨
          evalConst known (.unary sign .neg (.literal node (.int value))) = .ok (.int v) := by
  refine ⟨fun r digits tail c file h htail hrest => ?_, fun text file t ht hkind => ?_, fun v => ?_⟩
  · obtain ⟨hok, herror⟩ := scanNumber_int h htail hrest
    obtain ⟨x, rest, hx, hdigit⟩ := h.exists_digit
    have htext := (past_behind hrest).textTo
    have hscan := scanToken_digit (c := c) (by rw [hrest, hx]; rfl) hdigit file
    rw [scanLexeme, if_pos (by rw [hdigit, Bool.true_or])] at hscan
    refine ⟨fun hrange => ?_, fun hrange => ?_⟩
    · rw [hok hrange] at hscan
      refine ⟨_, hscan, rfl, by rw [tokenTo, htext], _, ?_, toInt_wordOfNat _⟩
      rw [tokenTo, htext, String.toList_ofList]
      exact Radix.intValue?_of_inRange h hrange
    · obtain ⟨fault, hfault⟩ := herror hrange
      rw [hfault] at hscan
      simp only [htext] at hscan
      exact ⟨fault, hscan⟩
  · obtain ⟨c, hscan⟩ := (Lexer.yields_lex text file).exists_scanToken ht
    obtain ⟨value, hvalue⟩ := intValue?_of_scanToken hscan hkind
    refine ⟨value, hvalue, fun s => ⟨?_, fun hminus => ?_⟩⟩
    · rintro rfl
      exact ⟨Parser.primary_intLit hkind hvalue, Parser.component_intLit hkind hvalue⟩
    · rintro rfl
      exact Parser.component_minus_intLit hminus hkind hvalue
  · obtain ⟨hdigits, hvalue⟩ := numeralValue_toDigits v.toInt.natAbs
    have hlo := v.le_toInt
    have hhi := v.toInt_lt
    have hrange : Radix.decimal.InRange (Nat.toDigits 10 v.toInt.natAbs) := by
      refine ⟨hdigits.2 rfl, ?_⟩
      show numeralValue 10 _ < 2 ^ 31 + 1
      rw [hvalue]
      omega
    refine ⟨_, hdigits, hrange, _, Radix.intValue?_of_inRange hdigits hrange, fun known node sign => ?_⟩
    show Except.ok (Value.int _) = _ ∨ Except.ok (Value.int (-_)) = _
    rw [show Radix.decimal.base = 10 from rfl, hvalue]
    exact (wordOfNat_natAbs v).imp (fun h => by rw [h]) fun h => by rw [h]

end Nwscript
