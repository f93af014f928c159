/-! # Numerals

Reading unsigned numerals in a radix, and writing numbers at a width. -/

namespace Nwscript.Text

def digitValue? (radix : Nat) (c : Char) : Option Nat :=
  let v :=
    if '0' ≤ c ∧ c ≤ '9' then c.toNat - 48
    else if 'a' ≤ c ∧ c ≤ 'z' then c.toNat - 87
    else if 'A' ≤ c ∧ c ≤ 'Z' then c.toNat - 55
    else radix
  if v < radix then some v else none

def digitsValue? (radix : Nat) : Nat → List Char → Option Nat
  | acc, [] => some acc
  | acc, c :: cs =>
    match digitValue? radix c with
    | some d => digitsValue? radix (acc * radix + d) cs
    | none => none

/-- The value of an unsigned numeral: at least one digit, after at most one plus sign. -/
def numeral? (radix : Nat) : List Char → Option Nat
  | [] => none
  | '+' :: cs => if cs.isEmpty then none else digitsValue? radix 0 cs
  | cs => digitsValue? radix 0 cs

def numeralBelow? (radix bound : Nat) (cs : List Char) : Option Nat :=
  match numeral? radix cs with
  | some n => if n < bound then some n else none
  | none => none

def padLeft (width : Nat) (fill : Char) (s : String) : String :=
  String.ofList (List.replicate (width - s.length) fill) ++ s

def padRight (width : Nat) (s : String) : String :=
  s ++ String.ofList (List.replicate (width - s.length) ' ')

def hexLower (width n : Nat) : String := padLeft width '0' (String.ofList (Nat.toDigits 16 n))

def hexUpper (width n : Nat) : String :=
  padLeft width '0' (String.ofList ((Nat.toDigits 16 n).map Char.toUpper))

end Nwscript.Text
