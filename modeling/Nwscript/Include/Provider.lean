import Nwscript.Fatal
import Nwscript.Include.Library
import Nwscript.Include.Name
import Nwscript.Source.Files

/-! # Providers of includes

Where the texts of includes come from. Providers are asked in order: those of the project, those of
the installed resources, and last the bundled library. -/

namespace Nwscript

structure Provider where
  name : String
  /-- The text of a normalized name, if the provider has one. -/
  find : String → Except Fatal (Option String)

namespace Provider

def ofTexts (name : String) (texts : List (String × String)) : Provider where
  name := name
  find key :=
    .ok ((texts.reverse.find? fun t => normalizeName t.1 == key).map Prod.snd)

def bundledName : String := "bundled"

end Provider

structure Found where
  text : String
  origin : Origin
  deriving DecidableEq, Repr

structure Resolver where
  project : List Provider := []
  resources : List Provider := []
  /-- Fall back on the bundled library. -/
  bundled : Bool := true
  /-- The greatest depth of nested includes. -/
  maxDepth : Nat := 64

namespace Resolver

def search (name : String) : List Provider → Except Fatal (Option Found)
  | [] => .ok none
  | p :: ps => do
    match ← p.find name with
    | some text => return some ⟨text, .provider p.name⟩
    | none => search name ps

/-- Look up a normalized name, in the directory of the unit first if it has one. -/
def resolveFrom (r : Resolver) (unitDir : Option Provider) (name : String) :
    Except Fatal (Option Found) := do
  match ← search name (unitDir.toList ++ r.project ++ r.resources) with
  | some found => return some found
  | none =>
    if r.bundled then
      return (Library.lookup? name).map fun e => ⟨e.source, .bundled⟩
    else return none

def resolve (r : Resolver) (name : String) : Except Fatal (Option Found) := r.resolveFrom none name

end Resolver
end Nwscript
