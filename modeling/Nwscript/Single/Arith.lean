import Nwscript.Single.Basic

/-! # Arithmetic and comparison of single precision numbers

An operand that is not a number is passed on, the first of two. An operation without an answer
(infinity less infinity, zero times infinity) gives `Single.invalid`. -/

namespace Nwscript.Single

/-- The number with the other sign; defined for every bit pattern. -/
def neg (x : Single) : Single := ⟨x.bits ^^^ 0x80000000⟩

/-- Pass on an operand that is not a number, else compute. -/
def unlessNaN (x y : Single) (result : Single) : Single :=
  if x.isNaN then x.quiet else if y.isNaN then y.quiet else result

/-- The signed integer `k` with `x = k * 2 ^ e`, for finite `x` and an `e` up to its exponent. -/
def scaledTo (x : Single) (e : Int) : Int :=
  let m : Int := (x.significand * Nat.pow 2 (x.exponent - e).toNat : Nat)
  if x.isNegative then -m else m

def addFinite (x y : Single) : Single :=
  let e := min x.exponent y.exponent
  let sum := x.scaledTo e + y.scaledTo e
  if sum = 0 then ofMagnitude (x.isNegative && y.isNegative) 0
  else roundScaled (sum < 0) sum.natAbs e

def add (x y : Single) : Single :=
  unlessNaN x y <|
    if x.isInfinite then
      if y.isInfinite && x.isNegative != y.isNegative then invalid else x
    else if y.isInfinite then y
    else addFinite x y

def sub (x y : Single) : Single := unlessNaN x y (x.add y.neg)

def mul (x y : Single) : Single :=
  let negative := x.isNegative != y.isNegative
  unlessNaN x y <|
    if x.isInfinite || y.isInfinite then
      if x.isZero || y.isZero then invalid else infinity negative
    else roundScaled negative (x.significand * y.significand) (x.exponent + y.exponent)

def div (x y : Single) : Single :=
  let negative := x.isNegative != y.isNegative
  unlessNaN x y <|
    if x.isInfinite then if y.isInfinite then invalid else infinity negative
    else if y.isInfinite then ofMagnitude negative 0
    else if y.isZero then if x.isZero then invalid else infinity negative
    else
      let e := x.exponent - y.exponent
      if 0 ≤ e then roundRatio negative (x.significand * Nat.pow 2 e.toNat) y.significand
      else roundRatio negative x.significand (y.significand * Nat.pow 2 (-e).toNat)

def ofInt (n : Int) : Single := roundRatio (n < 0) n.natAbs 1

/-- Numbers in their order; both zeros have the same key. -/
def orderKey (x : Single) : Int := if x.isNegative then -(x.magnitude : Int) else x.magnitude

/-- Equality of values: the zeros are equal, and what is not a number equals nothing. -/
def eq (x y : Single) : Bool := !x.isNaN && !y.isNaN && x.orderKey == y.orderKey

def lt (x y : Single) : Bool := !x.isNaN && !y.isNaN && x.orderKey < y.orderKey

def le (x y : Single) : Bool := !x.isNaN && !y.isNaN && x.orderKey ≤ y.orderKey

end Nwscript.Single
