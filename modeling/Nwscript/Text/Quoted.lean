import Nwscript.Text.Digits
import Nwscript.Text.Printable

/-! # Quoted text

Characters and texts between quotes: the quote and the backslash are escaped, what is not printable
is written by its number. -/

namespace Nwscript.Text

def numbered (c : Char) : List Char :=
  ['\\', 'u', '\x7b'] ++ Nat.toDigits 16 c.toNat ++ ['\x7d']

def escaped (quote c : Char) : List Char :=
  if c = '\x00' then ['\\', '0']
  else if c = '\t' then ['\\', 't']
  else if c = '\r' then ['\\', 'r']
  else if c = '\n' then ['\\', 'n']
  else if c = '\\' || c = quote then ['\\', c]
  else if isExtending c || !isPrintable c then numbered c
  else [c]

def quotedChar (c : Char) : String := String.ofList (['\x27'] ++ escaped '\x27' c ++ ['\x27'])

def quotedText (cs : List Char) : String :=
  String.ofList (['\x22'] ++ cs.flatMap (escaped '\x22') ++ ['\x22'])

end Nwscript.Text
