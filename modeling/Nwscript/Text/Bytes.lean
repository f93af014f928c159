/-! # Bytes and characters

A script file is read one character per byte, so every byte is accepted and string constants keep
their exact bytes. Going back, a character below 256 stands for its byte; wider characters only come
from texts in memory and stand for their UTF-8 bytes. -/

namespace Nwscript

abbrev Bytes := List UInt8

namespace Text

def dropOrderMark : Bytes → Bytes
  | 0xEF :: 0xBB :: 0xBF :: rest => rest
  | bytes => bytes

def charOfByte (b : UInt8) : Char := Char.ofNat b.toNat

def decode (bytes : Bytes) : List Char := (dropOrderMark bytes).map charOfByte

def encodeChar (c : Char) : Bytes :=
  if c.toNat < 256 then [c.toNat.toUInt8] else String.utf8EncodeChar c

def encode (cs : List Char) : Bytes := cs.flatMap encodeChar

def utf8 (s : String) : Bytes := s.toList.flatMap String.utf8EncodeChar

def utf8Length (cs : List Char) : Nat := cs.foldl (fun n c => n + c.utf8Size) 0

/-- The characters that make up exactly the next `n` bytes, put in front of `taken` in reverse, and
what follows them. There are none when `n` ends inside a character or beyond the text. -/
def splitBytes : List Char → Nat → List Char → Option (List Char × List Char)
  | [], n, taken => if n = 0 then some (taken, []) else none
  | c :: rest, n, taken =>
    if n = 0 then some (taken, c :: rest)
    else if c.utf8Size ≤ n then splitBytes rest (n - c.utf8Size) (c :: taken)
    else none

/-- The characters between two byte offsets; nothing when an offset is out of bounds or inside a
character. -/
def slice (cs : List Char) (start stop : Nat) : List Char :=
  if start ≤ stop then
    match splitBytes cs start [] with
    | some (_, rest) =>
      match splitBytes rest (stop - start) [] with
      | some (taken, _) => taken.reverse
      | none => []
    | none => []
  else []

end Text
end Nwscript
