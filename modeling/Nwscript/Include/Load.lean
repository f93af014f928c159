import Nwscript.Include.Provider
import Nwscript.Token.Lexer

/-! # Loading includes

The files that a unit includes, directly or through others, are loaded once each. What every
directive pulled in is a tree. -/

namespace Nwscript

inductive Inclusion where
  /-- Nothing, because the file is there or is being loaded. -/
  | skipped
  /-- A file, with what its own directives pulled in. -/
  | loaded (file : FileId) (children : List Inclusion)
  deriving Repr, Inhabited

def Inclusion.file? : Inclusion → Option FileId
  | .skipped => none
  | .loaded file _ => some file

mutual

/-- What the directives of each file pulled in, file by file, for a tree with its root file. -/
def inclusionTable (file : FileId) (children : List Inclusion) :
    List (FileId × List (Option FileId)) :=
  (file, children.map Inclusion.file?) :: inclusionTables children

def inclusionTables : List Inclusion → List (FileId × List (Option FileId))
  | [] => []
  | .skipped :: rest => inclusionTables rest
  | .loaded file children :: rest => inclusionTable file children ++ inclusionTables rest

end

structure LoadState where
  files : SourceFiles
  /-- The names of the files that are loaded with all they include. -/
  expanded : List String := []
  /-- The last note first. -/
  notes : List Diagnostic := []
  deriving Inhabited

/-- A step of loading. What was loaded and noted is kept on a failure. -/
abbrev Load (α : Type) := EStateM Fatal LoadState α

/-- The directives of a text: the normalized names, and where they stand. Lexical errors are left
for the expansion. -/
def directives (text : String) (file : FileId) : List (String × Pos) :=
  ((tokens text file).filter fun t => t.kind == .includeLine).map fun t =>
    (normalizeName t.text, t.pos)

namespace Load

def noteBundled (name : String) (pos : Pos) : Load Unit :=
  modify fun s =>
    { s with
      notes :=
        { stage := .including, severity := .info, code := .resolvedFromBundledLibrary,
          message := "include \"" ++ name ++ "\" resolved from the bundled library",
          pos := some pos } :: s.notes }

def addFile (file : SourceFile) : Load FileId := do
  let s ← get
  let (id, files) := s.files.add file
  set { s with files }
  return id

abbrev FileLoader := List String → FileId → String → Load (List Inclusion)

def directive (resolver : Resolver) (unitDir : Option Provider) (expanding : List String)
    (parent : FileId) (loader : Option FileLoader) (name : String) (pos : Pos) :
    Load Inclusion := do
  if (← get).expanded.contains name || expanding.contains name then return .skipped
  match loader with
  | none => throw (.includeTooDeep name resolver.maxDepth)
  | some load =>
    match resolver.resolveFrom unitDir name with
    | .error e => throw e
    | .ok none => throw (.unresolvedInclude name ((← get).files.chain parent))
    | .ok (some found) =>
      if found.origin = .bundled then noteBundled name pos
      let file ← addFile { name, text := found.text, origin := found.origin, parent := some parent }
      let children ← load (name :: expanding) file found.text
      modify fun s => { s with expanded := name :: s.expanded }
      return .loaded file children

def follow (f : String → Pos → Load Inclusion) : List (String × Pos) → Load (List Inclusion)
  | [] => return []
  | (name, pos) :: rest => do
    let first ← f name pos
    return first :: (← follow f rest)

/-- Load what a file includes, with at most `depth` more levels. -/
def file (resolver : Resolver) (unitDir : Option Provider) : Nat → FileLoader
  | 0, expanding, file, text =>
    follow (directive resolver unitDir expanding file none) (directives text file)
  | depth + 1, expanding, id, text =>
    follow (directive resolver unitDir expanding id (some (file resolver unitDir depth)))
      (directives text id)

end Load

def loadIncludes (resolver : Resolver) (unitDir : Option Provider) (files : SourceFiles)
    (entry : FileId) : EStateM.Result Fatal LoadState (List Inclusion) :=
  match files.get? entry with
  | some f =>
    Load.file resolver unitDir resolver.maxDepth [normalizeName f.name] entry f.text { files }
  | none => .error (.internal "entry file missing from source map") { files }

def LoadState.diagnostics (s : LoadState) : List Diagnostic := s.notes.reverse

end Nwscript
