import Nwscript.Text.Blank

/-! # Include names -/

namespace Nwscript

/-- The name under which an include is looked up: without blanks around it, in lower case, and
without the file ending. -/
def normalizeName (name : String) : String :=
  let lower := (Text.trim name.toList).map Text.toLowerAscii
  String.ofList (Text.trimEnd (Text.dropEnding ".nss".toList lower))

end Nwscript
