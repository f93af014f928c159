import Nwscript.Include.Load

/-! # Expanding includes

The tokens of a unit: those of the entry file, with the tokens of each included file behind the
directive that pulled it in. Directives stay among the tokens, and the only end is that of the entry
file. -/

namespace Nwscript

/-- A check of the expansion that failed. None of them arises for a tree that was loaded. -/
inductive ExpandFault where
  | missingDirective
  | missingFile
  deriving DecidableEq, Repr

def ExpandFault.fatal : ExpandFault → Fatal
  | missingDirective => .internal "include directive missing from plan"
  | missingFile => .internal "include file missing from source map"

/-- The tokens of a file with all it includes, and the lexical errors. -/
structure Expansion where
  tokens : List Token := []
  errors : List LexError := []
  deriving Repr

namespace Expansion

def append (a b : Expansion) : Expansion := ⟨a.tokens ++ b.tokens, a.errors ++ b.errors⟩

def cons (t : Token) (e : Expansion) : Expansion := { e with tokens := t :: e.tokens }

end Expansion

/-- Put the expansions of its includes into the tokens of a file, each behind its directive. -/
def weave (isEntry : Bool) :
    List (Except LexError Token) → List (Option Expansion) → Except ExpandFault Expansion
  | [], _ => .ok {}
  | .error e :: rest, children => do
    let after ← weave isEntry rest children
    return { after with errors := e :: after.errors }
  | .ok t :: rest, children =>
    if t.kind = .eof then do
      let after ← weave isEntry rest children
      return if isEntry then after.cons t else after
    else if t.kind = .includeLine then
      match children with
      | some child :: children => do return (child.append (← weave isEntry rest children)).cons t
      | none :: children => do return (← weave isEntry rest children).cons t
      | [] => .error .missingDirective
    else do return (← weave isEntry rest children).cons t

def expandFile (files : SourceFiles) (isEntry : Bool) (file : FileId)
    (children : List (Option Expansion)) : Except ExpandFault Expansion :=
  match files.get? file with
  | some f => weave isEntry (lex f.text file) children
  | none => .error .missingFile

mutual

def expandInclusion (files : SourceFiles) : Inclusion → Except ExpandFault (Option Expansion)
  | .skipped => .ok none
  | .loaded file children => do
    let inner ← expandInclusions files children
    return some (← expandFile files false file inner)

def expandInclusions (files : SourceFiles) :
    List Inclusion → Except ExpandFault (List (Option Expansion))
  | [] => .ok []
  | i :: is => do
    let first ← expandInclusion files i
    return first :: (← expandInclusions files is)

end

def expand (files : SourceFiles) (entry : FileId) (inclusions : List Inclusion) :
    Except ExpandFault Expansion := do
  expandFile files true entry (← expandInclusions files inclusions)

end Nwscript
