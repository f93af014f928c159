import Nwscript.CommandLine

/-! # The program

The command line over the files of the system. The files that a command may ask for are read into a
tree first, the command runs on the tree, and then its objects are written. Directories are not
listed: an include is found under its normalized name or as the directive spells it. -/

namespace Nwscript.CommandLine

def probe (path : String) : IO (Option FileEntry) := do
  try
    return some (.file (← IO.FS.readBinFile path).toList)
  catch e =>
    match e with
    | .inappropriateType _ 21 _ => return some .directory
    | _ => return none

def target (t : FileTree) (path : String) : Location :=
  (Path.moves path).foldl (fun loc part => if part == ".." then loc.dropLast else loc ++ [part])
    (t.start path)

def load (t : FileTree) (path : String) : IO FileTree := do
  match ← probe path with
  | some entry => return if (target t path).isEmpty then t else t.putAll (target t path) entry
  | none => return t

def loadAll (t : FileTree) (paths : List String) : IO FileTree := paths.foldlM load t

def includeFiles (t : FileTree) (path : String) : List String :=
  match t.read path with
  | .ok bytes =>
    let found := (tokens (String.ofList (Text.decode bytes)) 0).filter fun k =>
      k.kind == .includeLine
    found.flatMap fun k => [normalizeName k.text ++ ".nss", k.text ++ ".nss", k.text]
  | .error _ => []

/-- Load the scripts that scripts include, until there are no new ones. -/
partial def loadScripts (dirs seen : List String) (t : FileTree) : List String → IO FileTree
  | [] => return t
  | path :: rest => do
    if seen.contains path then loadScripts dirs seen t rest
    else
      let names := (includeFiles t path).filter fun n => !n.isEmpty
      let more := dirs.flatMap fun dir => names.map (Path.join dir)
      loadScripts dirs (path :: seen) (← loadAll t more) (rest ++ more.eraseDups)

def snapshot (command : Option Command) : IO FileTree := do
  let dir := (← IO.getEnv "PWD").getD "/"
  let t : FileTree := { entries := [], workingDir := Path.moves dir }
  let t := t.makeDirs [] t.workingDir
  match command with
  | some (.disassemble path) => load t path
  | some (.compile o) =>
    let t ← load t (o.config.getD defaultConfig)
    match settings t o with
    | .error _ => return t
    | .ok s =>
      let dirs := s.includePaths ++ s.resourcePaths ++ o.files.map Path.directory
      let t ← loadAll t (s.engineScript.toList ++ dirs ++ o.output.toList ++
        o.output.toList.map Path.directory ++ o.files)
      loadScripts dirs.eraseDups [] t o.files
  | _ => return t

def elapsedText (nanos : Nat) : String :=
  let digits := (Text.padLeft 6 '0' (toString (nanos % 1000000))).toList
  let fraction := (digits.reverse.dropWhile (· == '0')).reverse
  toString (nanos / 1000000) ++
    if fraction.isEmpty then "" else "." ++ String.ofList fraction

def writeObjects (r : Run) : IO Run := do
  try
    for (path, bytes) in r.written do
      IO.FS.writeBinFile path (ByteArray.mk bytes.toArray)
    return r
  catch _ => return { (r.abort "Os") with summary := none }

end Nwscript.CommandLine

open Nwscript Nwscript.CommandLine in
def main (args : List String) : IO UInt32 := do
  let start ← IO.monoNanosNow
  let r ← writeObjects (CommandLine.run (← snapshot (parseCommand args)) args)
  for line in r.err do IO.eprintln line
  for line in r.lines (elapsedText ((← IO.monoNanosNow) - start)) do IO.println line
  return UInt32.ofNat r.exit
