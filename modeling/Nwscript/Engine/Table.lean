import Nwscript.Fatal
import Nwscript.Syntax.ItemParser
import Nwscript.Text.Checksum
import Nwscript.Token.Lexer
import Nwscript.Value.Eval

/-! # The engine table

The functions, constants and types that the engine offers, read from a definition script. The script
declares types by definitions, constants as variables with a value, and functions as prototypes; the
place of a prototype among the prototypes is the ordinal of the function. -/

namespace Nwscript

/-! ## Errors -/

inductive EngineFault where
  | badLexeme (fault : LexFault)
  | badGrammar (error : SyntaxError)
  | invalidSlot (slot : String)
  | noValue (name : String)
  | wrongType (name : String) (declared actual : Ty)
  | declaredTwice (name : String)
  | tooManyFunctions
  | unknownType (name : String)
  | structType (name : String)
  | notConstant (fault : EvalFault)
  | functionBody
  | structDeclared
  | includeLine
  deriving DecidableEq, Repr

def EngineFault.message : EngineFault → String
  | badLexeme fault => fault.message
  | badGrammar error => error.message
  | invalidSlot slot => "invalid engine structure slot '" ++ slot ++ "'"
  | noValue name => "constant '" ++ name ++ "' has no value"
  | wrongType name declared actual =>
    "constant '" ++ name ++ "' is declared " ++ declared.text ++ " but has a " ++ actual.text ++
      " value"
  | declaredTwice name => "engine function '" ++ name ++ "' declared twice"
  | tooManyFunctions => "too many engine functions"
  | unknownType name => "unknown engine type '" ++ name ++ "'"
  | structType name => "structure type '" ++ name ++ "' is not allowed here"
  | notConstant fault => "expected a constant value (" ++ fault.name ++ ")"
  | functionBody => "engine functions cannot have a body"
  | structDeclared => "structures are not allowed here"
  | includeLine => "includes are not allowed here"

structure EngineError where
  fault : EngineFault
  pos : Pos
  deriving DecidableEq, Repr

def EngineError.message (e : EngineError) : String := e.pos.text ++ ": " ++ e.fault.message

def EngineError.fatal (e : EngineError) : Fatal := .engineTable e.message

/-! ## The table -/

structure EngineParam where
  name : String
  type : Ty
  default : Option Value
  deriving DecidableEq, Repr

structure EngineFunction where
  ordinal : UInt16
  name : String
  ret : Ty
  params : List EngineParam
  deriving DecidableEq, Repr

def EngineFunction.required (f : EngineFunction) : Nat :=
  (f.params.takeWhile fun p => p.default.isNone).length

def engineTypeSlots : Nat := 10

structure EngineTable where
  /-- The label of the engine's version. -/
  version : String
  /-- The checksum of the definition script. -/
  checksum : UInt64
  types : Vector (Option String) engineTypeSlots := .replicate engineTypeSlots none
  /-- By ordinal. -/
  functions : Array EngineFunction := #[]
  /-- The ordinals of the names, the last one first. -/
  byName : List (String × UInt16) := []
  /-- The last declared constant first. -/
  constants : List (String × Value) := []
  deriving Repr

namespace EngineTable

def functionAt? (t : EngineTable) (ordinal : UInt16) : Option EngineFunction :=
  t.functions[ordinal.toNat]?

def function? (t : EngineTable) (name : String) : Option EngineFunction :=
  (t.byName.lookup name).bind t.functionAt?

def constant? (t : EngineTable) (name : String) : Option Value := t.constants.lookup name

def typeNames (t : EngineTable) : List String := t.types.toList.filterMap id

def slot? (t : EngineTable) (name : String) : Option UInt8 :=
  (t.types.findFinIdx? fun slot => slot == some name).map fun slot => slot.val.toUInt8

def type? (t : EngineTable) (name : String) : Option Ty :=
  (t.slot? name).map fun slot => .engine slot name

/-! ## Reading a definition script -/

def resolve (t : EngineTable) (pos : Pos) : TypeSpec → Except EngineError Ty
  | .void => .ok .void
  | .int => .ok .int
  | .float => .ok .float
  | .string => .ok .string
  | .object => .ok .object
  | .vector => .ok .vector
  | .action => .ok .action
  | .engine name =>
    match t.type? name with
    | some type => .ok type
    | none => .error ⟨.unknownType name, pos⟩
  | .struct name => .error ⟨.structType name, pos⟩

def eval (t : EngineTable) (e : Expr) : Except EngineError Value :=
  match evalConst t.constant? e with
  | .ok value => .ok value
  | .error fault => .error ⟨.notConstant fault, e.pos⟩

def addDefinition (t : EngineTable) (pos : Pos) (name value : String) :
    Except EngineError EngineTable :=
  let lead := engineStructureLead.toList
  if lead.isPrefixOf name.toList then
    let slot := name.toList.drop lead.length
    match Text.numeralBelow? 10 engineTypeSlots slot with
    | some index => .ok { t with types := t.types.setIfInBounds index (some value) }
    | none => .error ⟨.invalidSlot (String.ofList slot), pos⟩
  else .ok t

def addConstant (type : Ty) (t : EngineTable) (var : Declarator) :
    Except EngineError EngineTable := do
  match var.init with
  | none => throw ⟨.noValue var.name, var.node.pos⟩
  | some init =>
    let value ← t.eval init
    if value.type ≠ type then throw ⟨.wrongType var.name type value.type, var.node.pos⟩
    return { t with constants := (var.name, value) :: t.constants }

def param (t : EngineTable) (p : Param) : Except EngineError EngineParam := do
  let type ← t.resolve p.node.pos p.type
  let default ← p.default.mapM t.eval
  return { name := p.name, type, default }

def addFunction (t : EngineTable) (decl : FunctionDecl) : Except EngineError EngineTable := do
  if (t.byName.lookup decl.name).isSome then throw ⟨.declaredTwice decl.name, decl.pos⟩
  if 65535 < t.functions.size then throw ⟨.tooManyFunctions, decl.pos⟩
  let ret ← t.resolve decl.pos decl.ret
  let params ← decl.params.mapM t.param
  let ordinal := t.functions.size.toUInt16
  return { t with
    functions := t.functions.push { ordinal, name := decl.name, ret, params }
    byName := (decl.name, ordinal) :: t.byName }

def addItem (t : EngineTable) : Item → Except EngineError EngineTable
  | .defineLine pos name value => t.addDefinition pos name value
  | .global decl => do
    let type ← t.resolve decl.pos decl.type
    decl.vars.foldlM (addConstant type) t
  | .prototype decl => t.addFunction decl
  | .function decl _ => .error ⟨.functionBody, decl.pos⟩
  | .struct decl => .error ⟨.structDeclared, decl.pos⟩
  | .includeLine pos _ => .error ⟨.includeLine, pos⟩

def scriptTokens (source : String) : Except EngineError (List Token) :=
  (lex source 0).mapM fun
    | .ok t => .ok t
    | .error e => .error ⟨.badLexeme e.fault, e.pos⟩

def ofSource (version source : String) : Except EngineError EngineTable := do
  let tokens ← scriptTokens source
  let parsed := parse [] tokens
  match parsed.errors with
  | e :: _ => throw ⟨.badGrammar e, e.pos⟩
  | [] =>
    let empty : EngineTable := { version, checksum := Text.checksum (Text.utf8 source) }
    parsed.program.foldlM addItem empty

end EngineTable
end Nwscript
