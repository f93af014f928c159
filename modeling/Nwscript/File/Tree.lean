import Nwscript.File.Path
import Nwscript.Text.Bytes

/-! # Trees of files

The files that a compilation sees, as a value: which locations hold a file or a directory, and the
directory that relative paths start from. The locations that are not listed are empty; the root is
always a directory. -/

namespace Nwscript

inductive FileError where
  | notFound
  | notDirectory
  | isDirectory
  | nameTooLong
  | nulInName
  deriving DecidableEq, Repr

def FileError.message : FileError → String
  | notFound => "No such file or directory (os error 2)"
  | notDirectory => "Not a directory (os error 20)"
  | isDirectory => "Is a directory (os error 21)"
  | nameTooLong => "File name too long (os error 36)"
  | nulInName => "file name contained an unexpected NUL byte"

abbrev Location := List String

inductive FileEntry where
  | file (content : Bytes)
  | directory
  deriving DecidableEq, Repr

structure FileTree where
  entries : List (Location × FileEntry) := []
  /-- Where relative paths start. -/
  workingDir : Location := []
  deriving Repr

namespace FileTree

def get? (t : FileTree) (loc : Location) : Option FileEntry :=
  if loc.isEmpty then some .directory else t.entries.lookup loc

def put (t : FileTree) (loc : Location) (entry : FileEntry) : FileTree :=
  { t with entries := (loc, entry) :: t.entries.filter fun e => e.1 != loc }

def makeDirs (t : FileTree) (above : Location) : List String → FileTree
  | [] => t
  | name :: rest =>
    let dir := above ++ [name]
    makeDirs (if (t.get? dir).isNone then t.put dir .directory else t) dir rest

def putAll (t : FileTree) (loc : Location) (entry : FileEntry) : FileTree :=
  (t.makeDirs [] loc.dropLast).put loc entry

/-! ## Following paths -/

def maxName : Nat := 255

def maxPath : Nat := 4095

def walk (t : FileTree) : Location → List String → Except FileError Location
  | loc, [] => .ok loc
  | loc, part :: rest =>
    match t.get? loc with
    | none => .error .notFound
    | some (.file _) => .error .notDirectory
    | some .directory =>
      if part == "" || part == "." then t.walk loc rest
      else if part == ".." then t.walk loc.dropLast rest
      else if maxName < part.utf8ByteSize then .error .nameTooLong
      else if (t.get? (loc ++ [part])).isNone then .error .notFound
      else t.walk (loc ++ [part]) rest

def start (t : FileTree) (path : String) : Location :=
  if Path.isAbsolute path then [] else t.workingDir

/-- Refuse paths that name nothing in any tree. -/
def checkPath (path : String) : Except FileError Unit :=
  if path.toList.contains '\x00' then .error .nulInName
  else if path.isEmpty then .error .notFound
  else if maxPath < path.utf8ByteSize then .error .nameTooLong
  else .ok ()

def locate (t : FileTree) (path : String) : Except FileError Location := do
  checkPath path
  t.walk (t.start path) (Path.parts path)

/-! ## Using files -/

def read (t : FileTree) (path : String) : Except FileError Bytes := do
  match t.get? (← t.locate path) with
  | some (.file content) => return content
  | some .directory => throw .isDirectory
  | none => throw .notFound

def list (t : FileTree) (path : String) : Except FileError (List String) := do
  let loc ← t.locate path
  match t.get? loc with
  | some .directory =>
    return t.entries.filterMap fun e => if e.1.dropLast = loc then e.1.getLast? else none
  | some (.file _) => throw .notDirectory
  | none => throw .notFound

def pathExists (t : FileTree) (path : String) : Bool := (t.locate path).isOk

def isDirectory (t : FileTree) (path : String) : Bool :=
  match t.locate path with
  | .ok loc => t.get? loc = some .directory
  | .error _ => false

def write (t : FileTree) (path : String) (content : Bytes) : Except FileError FileTree := do
  checkPath path
  let parts := Path.parts path
  let dir ← t.walk (t.start path) parts.dropLast
  let name := parts.getLastD ""
  if t.get? dir ≠ some .directory then throw .notDirectory
  if name == "" || name == "." || name == ".." then throw .isDirectory
  if maxName < name.utf8ByteSize then throw .nameTooLong
  if t.get? (dir ++ [name]) = some .directory then throw .isDirectory
  return t.put (dir ++ [name]) (.file content)

def filesBelow (t : FileTree) : List (String × Bytes) :=
  t.entries.filterMap fun (loc, entry) =>
    match entry with
    | .file content =>
      if t.workingDir.isPrefixOf loc then
        some (String.intercalate "/" (loc.drop t.workingDir.length), content)
      else none
    | .directory => none

end FileTree
end Nwscript
