import Nwscript.Text.Bytes

/-! # The 64-bit FNV-1a checksum -/

namespace Nwscript.Text

def checksumStep (hash : UInt64) (b : UInt8) : UInt64 := (hash ^^^ b.toUInt64) * 0x100000001B3

/-- FNV-1a over 64 bits. -/
def checksum (bytes : Bytes) : UInt64 := bytes.foldl checksumStep 0xCBF29CE484222325

end Nwscript.Text
