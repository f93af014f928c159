import Nwscript.Single.Decimal
import Nwscript.Text.Bytes

/-! # Values of literals

The values that the texts of integer, float and string literals stand for. -/

namespace Nwscript.Literal

/-- The 32-bit integer with the low bits of a number. -/
def wordOfNat (n : Nat) : Int32 := (UInt32.ofNat n).toInt32

/-- The value of an integer literal. Hexadecimal and binary literals may use all 32 bits. Decimal
literals go up to 2147483648, so that the least integer can be written with a minus sign. -/
def intValue? : List Char → Option Int32
  | '0' :: 'x' :: digits => (Text.numeralBelow? 16 0x100000000 digits).map wordOfNat
  | '0' :: 'X' :: digits => (Text.numeralBelow? 16 0x100000000 digits).map wordOfNat
  | '0' :: 'b' :: digits => (Text.numeralBelow? 2 0x100000000 digits).map wordOfNat
  | '0' :: 'B' :: digits => (Text.numeralBelow? 2 0x100000000 digits).map wordOfNat
  | digits => (Text.numeralBelow? 10 0x80000001 digits).map wordOfNat

/-- A float literal as a decimal: without the suffix letters, and with a digit on both sides of the
point. -/
def normalizeFloat (cs : List Char) : List Char :=
  let body := (cs.reverse.dropWhile fun c => c = 'f' || c = 'F').reverse
  (if body.head? = some '.' then ['0'] else []) ++ body ++
    (if body.getLast? = some '.' then ['0'] else [])

def floatValue? (cs : List Char) : Option Single :=
  match Decimal.read? (normalizeFloat cs) with
  | some d => if d.toSingle.isFinite then some d.toSingle else none
  | none => none

def hexByte (digits : List Char) : Bytes :=
  match Text.numeralBelow? 16 256 digits with
  | some n => [n.toUInt8]
  | none => []

def unescapeAfter : List Char → Bytes → Bytes
  | [], done => done.reverse
  | '\\' :: [], done => done.reverse
  | '\\' :: 'n' :: cs, done => unescapeAfter cs (0x0A :: done)
  | '\\' :: 't' :: cs, done => unescapeAfter cs (0x09 :: done)
  | '\\' :: 'x' :: a :: b :: cs, done => unescapeAfter cs (hexByte [a, b] ++ done)
  | '\\' :: 'x' :: cs, done => (hexByte cs ++ done).reverse
  | '\\' :: c :: cs, done => unescapeAfter cs ((Text.encodeChar c).reverse ++ done)
  | c :: cs, done => unescapeAfter cs ((Text.encodeChar c).reverse ++ done)

/-- The bytes of the body of a string literal: the escapes n and t, x with two hexadecimal digits,
and any other character for itself. -/
def unescape (body : List Char) : Bytes := unescapeAfter body []

def stringBody (text : List Char) : List Char := text.tail.dropLast

end Nwscript.Literal
