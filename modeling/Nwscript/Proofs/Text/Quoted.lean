import Mathlib
import Nwscript.Text.Bytes
import Nwscript.Text.Quoted

/-! # Reading back what was written

Digits and quoted characters can be read back, so texts that are written alike are the same. -/

open List

namespace Nwscript.Text

/-! ## Digits -/

variable {base : Nat}

theorem digitsValue?_append (xs ys : List Char) (acc : Nat) : digitsValue? base acc (xs ++ ys) =
    (digitsValue? base acc xs).bind fun n => digitsValue? base n ys := by
  induction xs generalizing acc with
  | nil => rfl
  | cons x xs ih =>
    rw [cons_append, digitsValue?, digitsValue?]
    cases digitValue? base x with
    | none => rfl
    | some d => exact ih _

theorem digitValue?_digitChar {d : Nat} (hd : d < base) (hbase : base ≤ 16) :
    digitValue? base d.digitChar = some d := by
  have hdigits : ∀ (b : Fin 17) (d : Fin 16), d.val < b.val →
      digitValue? b.val d.val.digitChar = some d.val := by
    decide +kernel
  exact hdigits ⟨base, by omega⟩ ⟨d, by omega⟩ hd

theorem digitsValue?_toDigits (hbase : 1 < base) (hle : base ≤ 16) (n : Nat) :
    digitsValue? base 0 (Nat.toDigits base n) = some n ∧
      ∀ x ∈ Nat.toDigits base n, ∃ d < base, x = d.digitChar := by
  induction n using Nat.strongRecOn with
  | ind n ih =>
    by_cases h : n < base
    · rw [Nat.toDigits_of_lt_base h]
      refine ⟨by simp [digitsValue?, digitValue?_digitChar h hle], fun x hx => ⟨n, h, ?_⟩⟩
      exact mem_singleton.mp hx
    · have hmod : n % base < base := Nat.mod_lt _ (by omega)
      obtain ⟨hlead, hdigits⟩ := ih (n / base) (Nat.div_lt_self (by omega) hbase)
      have hsplit : Nat.toDigits base n = Nat.toDigits base (n / base) ++ [(n % base).digitChar] := by
        rw [← Nat.toDigits_of_lt_base hmod, Nat.toDigits_append_toDigits hbase
          (Nat.div_pos (by omega) (by omega)) hmod, Nat.div_add_mod]
      rw [hsplit, digitsValue?_append, hlead]
      refine ⟨?_, fun x hx => ?_⟩
      · simp only [Option.bind_some, digitsValue?, digitValue?_digitChar hmod hle, Option.some.injEq]
        exact Nat.div_add_mod' n base
      · rcases mem_append.mp hx with hx | hx
        · exact hdigits x hx
        · exact ⟨_, hmod, mem_singleton.mp hx⟩

/-! ## Quoted characters -/

/-- The character that an escape stands for, and what follows it. -/
def readEscape : List Char → Option (Char × List Char)
  | '0' :: rest => some ('\x00', rest)
  | 't' :: rest => some ('\t', rest)
  | 'r' :: rest => some ('\r', rest)
  | 'n' :: rest => some ('\n', rest)
  | 'u' :: '\x7b' :: rest =>
    (digitsValue? 16 0 (rest.takeWhile (· ≠ '\x7d'))).map fun n =>
      (Char.ofNat n, (rest.dropWhile (· ≠ '\x7d')).tail)
  | c :: rest => some (c, rest)
  | [] => none

/-- The character that quoted text begins with, and what follows it. -/
def readEscaped : List Char → Option (Char × List Char)
  | '\\' :: rest => readEscape rest
  | c :: rest => some (c, rest)
  | [] => none

theorem readEscaped_numbered (c : Char) (rest : List Char) :
    readEscaped (numbered c ++ rest) = some (c, rest) := by
  obtain ⟨hvalue, hdigits⟩ := digitsValue?_toDigits (by decide : 1 < 16) (Nat.le_refl _) c.toNat
  have hclose : ∀ d : Fin 16, d.val.digitChar ≠ '\x7d' := by decide
  have hplain : ∀ x ∈ Nat.toDigits 16 c.toNat, x ≠ '\x7d' := by
    intro x hx
    obtain ⟨d, hd, rfl⟩ := hdigits x hx
    exact hclose ⟨d, hd⟩
  have htake : (Nat.toDigits 16 c.toNat ++ '\x7d' :: rest).takeWhile (· ≠ '\x7d') =
      Nat.toDigits 16 c.toNat := by
    rw [takeWhile_append_of_pos (by simpa using hplain)]
    simp
  have hdrop : (Nat.toDigits 16 c.toNat ++ '\x7d' :: rest).dropWhile (· ≠ '\x7d') = '\x7d' :: rest := by
    rw [dropWhile_append_of_pos (by simpa using hplain)]
    simp
  show ((digitsValue? 16 0 ((Nat.toDigits 16 c.toNat ++ ['\x7d'] ++ rest).takeWhile _)).map fun n =>
    (Char.ofNat n, ((Nat.toDigits 16 c.toNat ++ ['\x7d'] ++ rest).dropWhile _).tail)) = _
  rw [append_assoc, singleton_append, htake, hdrop, hvalue]
  simp [Char.ofNat_toNat]

theorem readEscaped_escaped (c : Char) (rest : List Char) :
    readEscaped (escaped '"' c ++ rest) = some (c, rest) := by
  unfold escaped
  split
  · next hc => rw [hc]; rfl
  · split
    · next hc => rw [hc]; rfl
    · split
      · next hc => rw [hc]; rfl
      · split
        · next hc => rw [hc]; rfl
        · split
          · next hc =>
            rw [Bool.or_eq_true, decide_eq_true_eq, decide_eq_true_eq] at hc
            rcases hc with rfl | rfl <;> rfl
          · next hc =>
            split
            · exact readEscaped_numbered c rest
            · have hne : c ≠ '\\' := by
                rintro rfl
                simp at hc
              rw [singleton_append, readEscaped]
              exact hne

theorem eq_of_flatMap_escaped {cs ds : List Char}
    (h : cs.flatMap (escaped '"') = ds.flatMap (escaped '"')) : cs = ds := by
  have hne (c : Char) : escaped '"' c ≠ [] := by
    unfold escaped numbered
    grind
  induction cs generalizing ds with
  | nil =>
    cases ds with
    | nil => rfl
    | cons d ds => exact absurd (append_eq_nil_iff.mp h.symm).1 (hne d)
  | cons c cs ih =>
    cases ds with
    | nil => exact absurd (append_eq_nil_iff.mp h).1 (hne c)
    | cons d ds =>
      rw [flatMap_cons, flatMap_cons] at h
      have hread := congrArg readEscaped h
      rw [readEscaped_escaped, readEscaped_escaped] at hread
      obtain ⟨rfl, hrest⟩ := Prod.mk.inj (Option.some.inj hread)
      rw [ih hrest]

/-- Quoted strings are the same if and only if their bytes behind an order mark are. -/
theorem quotedText_decode_inj (xs ys : Bytes) :
    quotedText (decode xs) = quotedText (decode ys) ↔ dropOrderMark xs = dropOrderMark ys := by
  have htoNat (b : UInt8) : (charOfByte b).toNat = b.toNat := by
    have hlt := b.toNat_lt
    rw [charOfByte, Char.toNat_ofNat, if_pos (.inl (by omega))]
  have hinj : Function.Injective charOfByte := by
    intro a b h
    rw [← UInt8.toNat_inj, ← htoNat, h, htoNat]
  refine ⟨fun h => ?_, fun h => by rw [decode, decode, h]⟩
  have hchars := congrArg String.toList h
  simp only [quotedText, String.toList_ofList, cons_append, List.cons.injEq, true_and] at hchars
  have hquoted := append_cancel_right hchars
  exact map_injective_iff.mpr hinj (eq_of_flatMap_escaped hquoted)

end Nwscript.Text
