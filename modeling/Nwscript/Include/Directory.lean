import Nwscript.File.Tree
import Nwscript.Include.Provider

/-! # Includes in directories

A provider that looks for the file of a name in directories: under the name itself first, then under
any spelling of it. Of several spellings the least one is taken, so that the choice does not depend
on the order of a directory. -/

namespace Nwscript

def FileError.fatal (e : FileError) : Fatal := .io e.message

namespace FileTree

/-- The result of an access, or none when nothing is there. -/
def unlessMissing {α : Type} : Except FileError α → Except Fatal (Option α)
  | .ok a => .ok (some a)
  | .error .notFound => .ok none
  | .error e => .error e.fatal

def readScript? (t : FileTree) (path : String) : Except Fatal (Option String) := do
  return (← unlessMissing (t.read path)).map fun bytes => String.ofList (Text.decode bytes)

def spells (name fileName : String) : Bool :=
  ".nss".toList.isSuffixOf (fileName.toList.map Text.toLowerAscii) && normalizeName fileName == name

def least? : List String → Option String
  | [] => none
  | n :: ns =>
    match least? ns with
    | none => some n
    | some m => some (if m < n then m else n)

def findIn (t : FileTree) (dir name : String) : Except Fatal (Option String) := do
  match ← t.readScript? (Path.join dir (name ++ ".nss")) with
  | some text => return some text
  | none =>
    let names := (← unlessMissing (t.list dir)).getD []
    match least? (names.filter (spells name)) with
    | some fileName => t.readScript? (Path.join dir fileName)
    | none => return none

def findScript (t : FileTree) (name : String) : List String → Except Fatal (Option String)
  | [] => .ok none
  | dir :: dirs => do
    match ← t.findIn dir name with
    | some text => return some text
    | none => t.findScript name dirs

end FileTree

def Provider.ofDirectories (t : FileTree) (name : String) (dirs : List String) : Provider where
  name := name
  find key := t.findScript key dirs

end Nwscript
