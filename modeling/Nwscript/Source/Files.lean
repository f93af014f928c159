import Nwscript.Source.Position
import Nwscript.Text.Bytes

/-! # The files of a unit

The entry file and everything it includes, in the order of loading, each with the file that pulled
it in. -/

namespace Nwscript

inductive Origin where
  /-- The file handed to the compiler. -/
  | entry
  | provider (name : String)
  /-- The copy that comes with the compiler. -/
  | bundled
  deriving DecidableEq, Repr

structure SourceFile where
  name : String
  text : String
  origin : Origin
  /-- The file whose directive pulled this one in. -/
  parent : Option FileId
  deriving DecidableEq, Repr

structure SourceFiles where
  files : Array SourceFile := #[]
  deriving Repr, Inhabited

namespace SourceFiles

def size (s : SourceFiles) : Nat := s.files.size

def get? (s : SourceFiles) (id : FileId) : Option SourceFile := s.files[id]?

def add (s : SourceFiles) (file : SourceFile) : FileId × SourceFiles :=
  (s.files.size, ⟨s.files.push file⟩)

def namesUp (s : SourceFiles) : Nat → Option FileId → List String
  | 0, _ => []
  | _ + 1, none => []
  | steps + 1, some id =>
    match s.get? id with
    | some file => file.name :: s.namesUp steps file.parent
    | none => []

/-- The names of the files from the entry down to a file. A file is on its own chain once, so no
chain is longer than the number of files. -/
def chain (s : SourceFiles) (id : FileId) : List String := (s.namesUp s.size (some id)).reverse

def fragment (s : SourceFiles) (id : FileId) (span : Span) : String :=
  match s.get? id with
  | some file => String.ofList (Text.slice file.text.toList span.start span.stop)
  | none => ""

end SourceFiles
end Nwscript
