import Nwscript.Object.Listing
import Nwscript.Unit.Files

/-! # The command line

Commands as values, and what a command prints and writes as a function of the files it sees. -/

namespace Nwscript.CommandLine

/-! ## Commands -/

structure CompileOptions where
  output : Option String := none
  config : Option String := none
  engineScript : Option String := none
  tableVersion : Option String := none
  includePaths : List String := []
  noBundled : Bool := false
  listing : Bool := false
  /-- The scripts to compile, in order. -/
  files : List String := []
  deriving DecidableEq, Repr

inductive Command where
  /-- Compile scripts into objects. -/
  | compile (options : CompileOptions)
  /-- List the instructions of an object. -/
  | disassemble (path : String)
  | listLibrary
  deriving DecidableEq, Repr

/-- The options of a compilation. An unknown flag or a missing argument refuses all. -/
def parseOptions (o : CompileOptions) : List String → Option CompileOptions
  | [] => if o.files.isEmpty then none else some o
  | "--no-bundled" :: rest => parseOptions { o with noBundled := true } rest
  | "--listing" :: rest => parseOptions { o with listing := true } rest
  | "-o" :: arg :: rest => parseOptions { o with output := some arg } rest
  | "--config" :: arg :: rest => parseOptions { o with config := some arg } rest
  | "--nwscript" :: arg :: rest => parseOptions { o with engineScript := some arg } rest
  | "--table-version" :: arg :: rest => parseOptions { o with tableVersion := some arg } rest
  | "-I" :: arg :: rest => parseOptions { o with includePaths := o.includePaths ++ [arg] } rest
  | arg :: rest =>
    if arg.toList.head? == some '-' then none
    else parseOptions { o with files := o.files ++ [arg] } rest

def parseCommand : List String → Option Command
  | "compile" :: rest => (parseOptions {} rest).map .compile
  | "dis" :: path :: _ => some (.disassemble path)
  | "includes" :: _ => some .listLibrary
  | _ => none

def usage : List String :=
  ["",
    "usage: nsc CMD [OPTIONS] [FILE...]",
    "",
    "commands:",
    "    compile     Compile scripts into NCS objects",
    "    dis         Print the instruction listing of an NCS object",
    "    includes    List the bundled include library",
    "",
    "compile options:",
    "    -o OUT                  Output file, or directory when compiling many files",
    "    --config FILE           Configuration file (default: nsc.yaml if present)",
    "    --nwscript FILE         Engine definition script",
    "    --table-version V       Version label of the engine table (required here or in the config)",
    "    -I DIR                  Add a project include directory",
    "    --no-bundled            Do not fall back to the bundled include library",
    "    --listing               Print the instruction listing of each object",
    "",
    "examples:",
    "    nsc compile --nwscript nwscript.nss --table-version nwn scripts/heal.nss",
    "    nsc compile -o build scripts/*.nss",
    "    nsc dis build/heal.ncs",
    ""]

/-! ## Runs -/

structure Summary where
  compiled : Nat
  failed : Nat
  deriving DecidableEq, Repr

def Summary.line (s : Summary) (elapsed : String) : String :=
  toString s.compiled ++ " compiled, " ++ toString s.failed ++ " failed in " ++ elapsed ++ "ms"

structure Run where
  files : FileTree
  out : List String := []
  err : List String := []
  /-- Printed behind `out` when a compilation comes to its end. -/
  summary : Option Summary := none
  exit : Nat := 0
  /-- The objects written, in order. -/
  written : List (String × Bytes) := []

namespace Run

def print (r : Run) (lines : List String) : Run := { r with out := r.out ++ lines }

def printError (r : Run) (lines : List String) : Run := { r with err := r.err ++ lines }

def abort (r : Run) (kind : String) : Run :=
  { (r.printError ["Error: " ++ kind]) with exit := 1 }

end Run

def defaultConfig : String := "nsc.yaml"

def settings (t : FileTree) (o : CompileOptions) : Except Fatal Settings := do
  let s ← match o.config with
    | some path => t.loadSettings path
    | none => if t.pathExists defaultConfig then t.loadSettings defaultConfig else .ok {}
  return { s with
    engineScript := o.engineScript <|> s.engineScript
    tableVersion := o.tableVersion <|> s.tableVersion
    includePaths := s.includePaths ++ o.includePaths
    useBundledLibrary := s.useBundledLibrary && !o.noBundled }

def outputPath (t : FileTree) (o : CompileOptions) (source : String) : String :=
  let object := Path.withEnding source "ncs"
  match o.output with
  | none => object
  | some path =>
    if 1 < o.files.length || t.isDirectory path then
      Path.join path ((Path.fileName? object).getD object)
    else path

def finish (o : CompileOptions) (r : Run) (s : Summary) : List (String × CompileOutput) → Run
  | [] => { r with summary := some s, exit := if s.failed == 0 then 0 else 1 }
  | (path, output) :: rest =>
    let r := r.printError (output.diagnostics.map Diagnostic.text)
    match output.object with
    | none => finish o r { s with failed := s.failed + 1 } rest
    | some object =>
      let target := outputPath r.files o path
      match r.files.write target object.bytes with
      | .error _ => r.abort "Os"
      | .ok files =>
        let r := { r with files, written := r.written ++ [(target, object.bytes)] }
        let s := { s with compiled := s.compiled + 1 }
        if !o.listing then finish o r s rest
        else
          match listingLines object.bytes with
          | .ok lines => finish o (r.print lines) s rest
          | .error e => r.abort e.fatal.kind

/-- The exit code of a run that does not come to its end. -/
def brokenOff : Nat := 101

def runCompile (t : FileTree) (o : CompileOptions) : Run :=
  match settings t o >>= Compiler.ofSettings t with
  | .error e => Run.abort { files := t } e.kind
  | .ok c =>
    match c.compileFiles t false o.files with
    | some outputs => finish o { files := t } ⟨0, 0⟩ (o.files.zip outputs)
    | none => { files := t, exit := brokenOff }

def runDisassemble (t : FileTree) (path : String) : Run :=
  let lines := do
    let bytes ← (t.read path).mapError FileError.fatal
    (listingLines bytes).mapError ObjectError.fatal
  match lines with
  | .ok lines => Run.print { files := t } lines
  | .error e => Run.abort { files := t } e.kind

def libraryLines : List String :=
  ("bundled include library, revision " ++ toString Library.revision) ::
    Library.entries.map fun e =>
      Text.padRight 16 e.name ++ " " ++ Text.hexLower 16 e.checksum.toNat ++ " " ++
        Text.padLeft 6 ' ' (toString e.source.utf8ByteSize) ++ " bytes"

def run (t : FileTree) (args : List String) : Run :=
  match parseCommand args with
  | some (.compile o) => runCompile t o
  | some (.disassemble path) => runDisassemble t path
  | some .listLibrary => Run.print { files := t } libraryLines
  | none => { Run.print { files := t } (("nsc v" ++ release) :: usage) with exit := 64 }

def Run.lines (r : Run) (elapsed : String) : List String :=
  r.out ++ (r.summary.map fun s => s.line elapsed).toList

end Nwscript.CommandLine
