/-! # Types of values -/

namespace Nwscript

inductive Ty where
  | void
  | int
  | float
  | string
  | object
  | vector
  | action
  | struct (name : String)
  | engine (slot : UInt8) (name : String)
  deriving DecidableEq, Repr, Inhabited

namespace Ty

def text : Ty → String
  | void => "void"
  | int => "int"
  | float => "float"
  | string => "string"
  | object => "object"
  | vector => "vector"
  | action => "action"
  | struct name => "struct " ++ name
  | engine _ name => name

/-- Variables, fields and parameters may have the type. -/
def isStorable : Ty → Bool
  | void | action => false
  | _ => true

end Ty
end Nwscript
