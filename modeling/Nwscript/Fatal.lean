import Nwscript.Diagnostic
import Nwscript.Text.Digits

/-! # Fatal errors

Conditions that end the compilation of a unit. Problems of the source are diagnostics instead. -/

namespace Nwscript

inductive Fatal where
  /-- A file could not be read or written. -/
  | io (message : String)
  /-- No provider knows the name that the last file of the chain asks for. -/
  | unresolvedInclude (name : String) (chain : List String)
  | includeTooDeep (name : String) (depth : Nat)
  /-- A check of the compiler on its own work failed. -/
  | internal (message : String)
  /-- The engine definition script could not be loaded. -/
  | engineTable (message : String)
  /-- The bytes of an object are not well formed. -/
  | malformed (offset : Nat) (message : String)
  /-- The settings file was refused. -/
  | config
  deriving DecidableEq, Repr

namespace Fatal

def message : Fatal → String
  | io m => "i/o error: " ++ m
  | unresolvedInclude name chain =>
    let origin := if chain.isEmpty then "" else
      " (included from " ++ String.intercalate " -> " chain ++ ")"
    "unresolved include \"" ++ name ++ "\"" ++ origin
  | includeTooDeep name depth =>
    "include \"" ++ name ++ "\" exceeds maximum nesting depth " ++ toString depth
  | internal m => "internal compiler error: " ++ m
  | engineTable m => "engine table: " ++ m
  | malformed offset m => "malformed object at 0x" ++ Text.hexUpper 8 offset ++ ": " ++ m
  | config => "configuration"

def kind : Fatal → String
  | io _ => "Io"
  | unresolvedInclude _ _ => "UnresolvedInclude"
  | includeTooDeep _ _ => "IncludeTooDeep"
  | internal _ => "Internal"
  | engineTable _ => "EngineTable"
  | malformed _ _ => "Malformed"
  | config => "Config"

def code : Fatal → DiagCode
  | unresolvedInclude _ _ => .unresolvedInclude
  | includeTooDeep _ _ => .includeTooDeep
  | io _ => .io
  | _ => .internal

def hasSource : Fatal → Bool
  | io _ => true
  | config => true
  | _ => false

def chainIn (unit : String) : Fatal → List String
  | unresolvedInclude _ chain => if chain.isEmpty then [unit] else chain
  | _ => [unit]

end Fatal
end Nwscript
