import Nwscript.Include.Directory
import Nwscript.Settings.Basic
import Nwscript.Unit.Compile

/-! # Compiling files

Units from files, one or many, and compilers from settings. The directory of a script is searched for
its includes before all others. -/

namespace Nwscript

namespace FileTree

def loadEngine (t : FileTree) (version path : String) : Except Fatal EngineTable := do
  let bytes ← (t.read path).mapError FileError.fatal
  (EngineTable.ofSource version (String.ofList (Text.decode bytes))).mapError EngineError.fatal

def loadSettings (t : FileTree) (path : String) : Except Fatal Settings :=
  match t.read path with
  | .ok bytes => Settings.ofBytes bytes
  | .error .isDirectory => .error .config
  | .error e => .error e.fatal

end FileTree

namespace Compiler

def providers (t : FileTree) (name : String) (dirs : List String) : List Provider :=
  if dirs.isEmpty then [] else [.ofDirectories t name dirs]

def ofSettings (t : FileTree) (s : Settings) : Except Fatal Compiler := do
  match s.engineScript, s.tableVersion with
  | none, _ => throw (.engineTable "no engine definition script configured")
  | some _, none => throw (.engineTable "no engine table version configured")
  | some path, some version =>
    let engine ← t.loadEngine version path
    return {
      engine
      resolver :=
        { project := providers t "project" s.includePaths
          resources := providers t "resources" s.resourcePaths
          bundled := s.useBundledLibrary
          maxDepth := s.maxIncludeDepth }
      warningsAsErrors := s.warningsAsErrors }

def unitDirName : String := "source"

def compileFile (c : Compiler) (t : FileTree) (path : String) : Option CompileOutput :=
  let name := (Path.fileName? path).getD path
  match t.read path with
  | .ok bytes =>
    c.compileUnit name (String.ofList (Text.decode bytes))
      (some (.ofDirectories t unitDirName [Path.directory path]))
  | .error e => some (failed (c.newUnit name) e.fatal)

/-- Compile files in order, or none when the work is cancelled before it starts. Units share nothing,
so the number of workers does not show. One file without an output leaves them all without. -/
def compileFiles (c : Compiler) (t : FileTree) (cancelled : Bool) (paths : List String) :
    Option (List CompileOutput) :=
  if cancelled then some [] else paths.mapM (c.compileFile t)

end Compiler
end Nwscript
