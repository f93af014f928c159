/-! # Single precision numbers

A number is its 32 bits: sign, 8 bits of exponent, 23 bits of fraction. Everything is computed in
exact integer arithmetic, and `roundRatio` is the only place where a result is rounded: to the
nearest number, a tie to the one with an even last bit. -/

namespace Nwscript

structure Single where
  bits : UInt32
  deriving DecidableEq, Repr, Inhabited

namespace Single

def isNegative (x : Single) : Bool := 0x80000000 ≤ x.bits.toNat

/-- The bits without the sign. They are ordered like the absolute values. -/
def magnitude (x : Single) : Nat := x.bits.toNat % 0x80000000

/-- The magnitude of infinity; the ones above it are not numbers. -/
def infiniteMagnitude : Nat := 0x7F800000

def isNaN (x : Single) : Bool := infiniteMagnitude < x.magnitude

def isInfinite (x : Single) : Bool := x.magnitude == infiniteMagnitude

def isFinite (x : Single) : Bool := x.magnitude < infiniteMagnitude

def isZero (x : Single) : Bool := x.magnitude == 0

def ofMagnitude (negative : Bool) (magnitude : Nat) : Single :=
  ⟨UInt32.ofNat (if negative then magnitude + 0x80000000 else magnitude)⟩

def zero : Single := ⟨0⟩

def infinity (negative : Bool) : Single := ofMagnitude negative infiniteMagnitude

/-- The answer of an operation that has none. -/
def invalid : Single := ⟨0xFFC00000⟩

def quiet (x : Single) : Single := ⟨x.bits ||| 0x00400000⟩

/-- A finite number is `significand * 2 ^ exponent`, apart from its sign. -/
def significand (x : Single) : Nat :=
  if x.magnitude < 0x800000 then x.magnitude else x.magnitude % 0x800000 + 0x800000

/-- The exponent that goes with `significand`. -/
def exponent (x : Single) : Int :=
  if x.magnitude < 0x800000 then -149 else (x.magnitude / 0x800000 : Nat) - 150

/-- The quotient rounded to the nearest integer, a tie to the even one. -/
def roundDiv (num den : Nat) : Nat :=
  let q := num / den
  let r := num % den
  if den < 2 * r ∨ (2 * r = den ∧ q % 2 = 1) then q + 1 else q

def ratioLog (num den : Nat) : Int :=
  let a := num.log2
  let b := den.log2
  if num * Nat.pow 2 b < den * Nat.pow 2 a then (a : Int) - b - 1 else (a : Int) - b

/-- The single precision number nearest to a ratio, a tie to even; too large ones are infinite. -/
def roundRatio (negative : Bool) (num den : Nat) : Single :=
  if num = 0 then ofMagnitude negative 0
  else
    let scale : Int := max (ratioLog num den - 23) (-149)
    let q :=
      if 0 ≤ scale then roundDiv num (den * Nat.pow 2 scale.toNat)
      else roundDiv (num * Nat.pow 2 (-scale).toNat) den
    ofMagnitude negative (min ((scale + 149).toNat * 0x800000 + q) infiniteMagnitude)

def roundScaled (negative : Bool) (m : Nat) (e : Int) : Single :=
  if 0 ≤ e then roundRatio negative (m * Nat.pow 2 e.toNat) 1
  else roundRatio negative m (Nat.pow 2 (-e).toNat)

end Single
end Nwscript
