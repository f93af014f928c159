/-! # Scopes

The nested scopes of a function, the innermost first. -/

namespace Nwscript

abbrev VarId := Nat

abbrev Scope := List (String × VarId)

structure ScopeStack where
  scopes : List Scope := []
  deriving DecidableEq, Repr, Inhabited

namespace ScopeStack

def depth (s : ScopeStack) : Nat := s.scopes.length

def push (s : ScopeStack) : ScopeStack := ⟨[] :: s.scopes⟩

def pop (s : ScopeStack) : ScopeStack := ⟨s.scopes.tail⟩

def clear (_ : ScopeStack) : ScopeStack := {}

def inner? (s : ScopeStack) (name : String) : Option VarId :=
  match s.scopes with
  | scope :: _ => scope.lookup name
  | [] => none

/-- Declare a name in the innermost scope, unless it is declared there; without an open scope
nothing is declared. -/
def declare (s : ScopeStack) (name : String) (var : VarId) : ScopeStack :=
  match s.scopes with
  | scope :: outer =>
    if (scope.lookup name).isSome then s else ⟨((name, var) :: scope) :: outer⟩
  | [] => s

def lookup? (s : ScopeStack) (name : String) : Option VarId :=
  s.scopes.findSome? fun scope => scope.lookup name

end ScopeStack
end Nwscript
