import Nwscript.Single.Basic

/-! # The shortest decimal of a single precision number

`shortest` gives the fewest digits that read back as the number, and of those the nearest to it.
`Single.text` writes them with the bounds of `positional` and at least one decimal place. -/

namespace Nwscript.Single

structure Digits where
  coefficient : Nat
  exponent : Int
  deriving DecidableEq, Repr

/-- A finite positive value in quarters of its last bit, with the ends of the interval of the reals
that round to it. -/
structure Interval where
  low : Nat
  mid : Nat
  high : Nat
  /-- The ends belong to the interval. -/
  closed : Bool
  unitNum : Nat
  unitDen : Nat

/-- The interval of a finite number. Below a power of two the neighbours are twice as dense. -/
def interval (x : Single) : Interval :=
  let m := x.significand
  let e := x.exponent - 2
  { low := 4 * m - (if m = 0x800000 ∧ -149 < x.exponent then 1 else 2)
    mid := 4 * m
    high := 4 * m + 2
    closed := m % 2 = 0
    unitNum := if 0 ≤ e then Nat.pow 2 e.toNat else 1
    unitDen := if 0 ≤ e then 1 else Nat.pow 2 (-e).toNat }

/-- Whether `a / b` is within reach of `c / d` from below. -/
def reaches (closed : Bool) (a c : Nat) : Bool := if closed then a ≤ c else a < c

/-- A neighbour of the value on the grid of the multiples of `10 ^ p`, if one is in the interval;
of two the nearer, and the upper of two at the same distance. -/
def onGrid? (i : Interval) (p : Int) : Option Nat :=
  let num := i.unitNum * (if 0 ≤ p then 1 else Nat.pow 10 (-p).toNat)
  let den := i.unitDen * (if 0 ≤ p then Nat.pow 10 p.toNat else 1)
  let below := i.mid * num / den
  let exact := i.mid * num % den = 0
  let above := if exact then below else below + 1
  let belowIn := reaches i.closed (i.low * num) (below * den)
  let aboveIn := reaches i.closed (above * den) (i.high * num)
  if belowIn && aboveIn then
    some (if 2 * (i.mid * num) < (below + above) * den then below else above)
  else if belowIn then some below
  else if aboveIn then some above
  else none

/-- The least power of ten above the value; the least one looked at is `10 ^ (-start)`. -/
def decimalLog (i : Interval) : Nat → Int → Int
  | 0, k => k
  | fuel + 1, k =>
    let num := i.mid * i.unitNum * (if 0 ≤ k then 1 else Nat.pow 10 (-k).toNat)
    let den := i.unitDen * (if 0 ≤ k then Nat.pow 10 k.toNat else 1)
    if num < den then k else decimalLog i fuel (k + 1)

/-- Try grids with one digit more at each step. Nine digits are always enough. -/
def searchGrids (i : Interval) : Nat → Int → Digits
  | 0, p => ⟨(onGrid? i p).getD 0, p⟩
  | fuel + 1, p =>
    match onGrid? i p with
    | some d => ⟨d, p⟩
    | none => searchGrids i fuel (p - 1)

def shortest (x : Single) : Digits :=
  let i := x.interval
  searchGrids i 9 (decimalLog i 90 (-46) - 1)

/-- The digits without zeros at the end, and the place of the point before them. -/
def Digits.spread (d : Digits) : List Char × Int :=
  let digits := Nat.toDigits 10 d.coefficient
  ((digits.reverse.dropWhile (· = '0')).reverse, digits.length + d.exponent)

/-- Digits with the point after `point` places, and at least one place after the point. -/
def positionalText (digits : List Char) (point : Int) : List Char :=
  if point ≤ 0 then ['0', '.'] ++ List.replicate (-point).toNat '0' ++ digits
  else
    let whole := point.toNat
    if digits.length ≤ whole then
      digits ++ List.replicate (whole - digits.length) '0' ++ ['.', '0']
    else digits.take whole ++ ['.'] ++ digits.drop whole

def exponentText (digits : List Char) (point : Int) : List Char :=
  let places := digits.drop 1
  digits.take 1 ++ (if places.isEmpty then [] else '.' :: places) ++ ['e'] ++
    (toString (point - 1)).toList

/-- The magnitudes of 1e-4 and 1e16: outside of them a number is written with an exponent. -/
def positionalBounds : Nat × Nat := (0x38D1B717, 0x5A0E1BCA)

def text (x : Single) : String :=
  if x.isNaN then "NaN"
  else
    let sign := if x.isNegative then ['-'] else []
    let body :=
      if x.isInfinite then ['i', 'n', 'f']
      else if x.isZero then ['0', '.', '0']
      else
        let (digits, point) := x.shortest.spread
        if positionalBounds.1 ≤ x.magnitude ∧ x.magnitude < positionalBounds.2 then
          positionalText digits point
        else exponentText digits point
    String.ofList (sign ++ body)

end Nwscript.Single
