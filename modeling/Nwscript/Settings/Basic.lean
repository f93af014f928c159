import Nwscript.Fatal
import Nwscript.Settings.Document
import Nwscript.Text.Bytes

/-! # Settings

What a settings file says about a compilation. Every name is optional, may be given once, and must
have a value of its kind. -/

namespace Nwscript

structure Settings where
  /-- The label of the engine's version. -/
  tableVersion : Option String := none
  engineScript : Option String := none
  /-- The directories of the project's includes. -/
  includePaths : List String := []
  /-- The directories of installed resources, searched behind those of the project. -/
  resourcePaths : List String := []
  useBundledLibrary : Bool := true
  maxIncludeDepth : Nat := 64
  warningsAsErrors : Bool := false
  /-- How many units may be compiled at a time. -/
  jobs : Option Nat := none
  deriving DecidableEq, Repr

namespace Settings

/-! ## Values by kind -/

def nullTexts : List String := ["", "null", "Null", "NULL", "~"]

def Scalar.isNull (s : Scalar) : Bool := !s.isQuoted && nullTexts.contains s.text

def hasLeadingZero (cs : List Char) : Bool :=
  match cs with
  | '0' :: rest => !rest.isEmpty && rest.all Char.isDigit
  | _ => false

/-- The number of 64 bits that a run of digits, without a sign, stands for. -/
def digits? (radix : Nat) (cs : List Char) : Option Nat :=
  if cs.isEmpty then none else (Text.digitsValue? radix 0 cs).filter (· < 0x10000000000000000)

def marked? (mark : String) (radix : Nat) (cs : List Char) : Option Nat :=
  if mark.toList.isPrefixOf cs then digits? radix (cs.drop mark.length) else none

/-- An unsigned number of 64 bits: decimal, or behind `0x`, `0o` or `0b`, with an optional plus in
front of all. -/
def unsigned? (cs : List Char) : Option Nat :=
  let digits := match cs with
    | '+' :: rest => rest
    | _ => cs
  marked? "0x" 16 digits <|> marked? "0o" 8 digits <|> marked? "0b" 2 digits <|>
    if hasLeadingZero digits then none else digits? 10 digits

def DocValue.text? : DocValue → Option String
  | .scalar s => some s.text
  | .list _ => none

def DocValue.nat? : DocValue → Option Nat
  | .scalar s => if s.isQuoted then none else unsigned? s.text.toList
  | .list _ => none

def DocValue.bool? : DocValue → Option Bool
  | .scalar s =>
    if s.isQuoted then none
    else if ["true", "True", "TRUE"].contains s.text then some true
    else if ["false", "False", "FALSE"].contains s.text then some false
    else none
  | .list _ => none

/-- A list; a value that is left out is an empty one. -/
def DocValue.texts? : DocValue → Option (List String)
  | .scalar s => if s = .missing then some [] else none
  | .list items => some (items.map Scalar.text)

def DocValue.orNull? {α : Type} (read : DocValue → Option α) : DocValue → Option (Option α)
  | .scalar s => if s.isNull then some none else (read (.scalar s)).map some
  | .list items => (read (.list items)).map some

/-! ## Reading -/

def setEntry (s : Settings) (key : String) (value : DocValue) : Option Settings :=
  match key with
  | "table_version" => (value.orNull? DocValue.text?).map fun v => { s with tableVersion := v }
  | "nwscript" => (value.orNull? DocValue.text?).map fun v => { s with engineScript := v }
  | "include_paths" => value.texts?.map fun v => { s with includePaths := v }
  | "resource_paths" => value.texts?.map fun v => { s with resourcePaths := v }
  | "use_bundled_library" => value.bool?.map fun v => { s with useBundledLibrary := v }
  | "max_include_depth" => value.nat?.map fun v => { s with maxIncludeDepth := v }
  | "warnings_as_errors" => value.bool?.map fun v => { s with warningsAsErrors := v }
  | "jobs" => (value.orNull? DocValue.nat?).map fun v => { s with jobs := v }
  | _ => none

def setEntries (seen : List String) (s : Settings) : List DocEntry → Option Settings
  | [] => some s
  | (key, value) :: rest =>
    if seen.contains key then none
    else do setEntries (key :: seen) (← s.setEntry key value) rest

def ofText (text : String) : Except Fatal Settings :=
  match readDocument text.toList >>= setEntries [] {} with
  | some s => .ok s
  | none => .error .config

def ofBytes (bytes : Bytes) : Except Fatal Settings :=
  match String.fromUTF8? (ByteArray.mk bytes.toArray) with
  | some text => ofText text
  | none => .error .config

/-- How many units to compile at a time: at least one, if a number is set. -/
def workers (s : Settings) : Option Nat := s.jobs.map (max 1)

end Settings
end Nwscript
