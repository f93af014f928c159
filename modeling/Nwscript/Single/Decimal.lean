import Nwscript.Single.Basic
import Nwscript.Text.Digits

/-! # Reading decimals

A decimal is a sign, digits with at most one point, and an optional exponent. It is read exactly and
rounded once. -/

namespace Nwscript

structure Decimal where
  negative : Bool
  coefficient : Nat
  exponent : Int
  deriving DecidableEq, Repr

namespace Decimal

def isDigit (c : Char) : Bool := '0' ≤ c && c ≤ '9'

def digitsToNat (cs : List Char) : Nat := cs.foldl (fun n c => n * 10 + (c.toNat - 48)) 0

def readSign : List Char → Bool × List Char
  | '-' :: cs => (true, cs)
  | '+' :: cs => (false, cs)
  | cs => (false, cs)

/-- The exponent part that ends a decimal: nothing, or a letter e and a signed run of digits. -/
def readExponent? : List Char → Option Int
  | [] => some 0
  | c :: cs =>
    if c = 'e' || c = 'E' then
      let (negative, digits) := readSign cs
      if digits.isEmpty || !digits.all isDigit then none
      else some (if negative then -(digitsToNat digits : Int) else digitsToNat digits)
    else none

def read? (cs : List Char) : Option Decimal :=
  let (negative, cs) := readSign cs
  let whole := cs.takeWhile isDigit
  let afterWhole := cs.dropWhile isDigit
  let (places, tail) :=
    match afterWhole with
    | '.' :: r => (r.takeWhile isDigit, r.dropWhile isDigit)
    | r => ([], r)
  if whole.isEmpty && places.isEmpty then none
  else
    match readExponent? tail with
    | some e => some ⟨negative, digitsToNat (whole ++ places), e - places.length⟩
    | none => none

/-- Decimals of this many digits before the point are beyond single precision, and those with this
many zeros after it below half of its least number. -/
def digitLimit : Int := 60

def toSingle (d : Decimal) : Single :=
  let places : Int := (Nat.toDigits 10 d.coefficient).length + d.exponent
  if d.coefficient = 0 || places < -digitLimit then Single.ofMagnitude d.negative 0
  else if digitLimit < places then Single.infinity d.negative
  else if 0 ≤ d.exponent then
    Single.roundRatio d.negative (d.coefficient * Nat.pow 10 d.exponent.toNat) 1
  else Single.roundRatio d.negative d.coefficient (Nat.pow 10 (-d.exponent).toNat)

end Decimal
end Nwscript
