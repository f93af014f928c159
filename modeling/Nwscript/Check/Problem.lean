import Nwscript.Diagnostic
import Nwscript.Syntax.Operator
import Nwscript.Types.Basic

/-! # Problems of a program

Everything a check of a program can find, with its code and message. -/

namespace Nwscript

def maxStringLength : Nat := 65535

inductive Problem where
  -- types and structures
  | unknownStruct (name : String)
  | unknownEngineType (name version : String)
  | structRedefined (name : String)
  | fieldType (field : String) (type : Ty)
  | fieldRedefined (field : String)
  -- functions
  | engineFunctionRedeclared (name : String)
  | actionResult
  | paramType (param : String) (type : Ty)
  | defaultType (param : String) (actual expected : Ty)
  | defaultDivision
  | defaultOperands
  | defaultNotConstant (param : String)
  | signatureMismatch (name : String)
  | functionRedefined (name : String)
  | paramRedefined (param : String)
  | missingReturn (name : String)
  -- the entry point
  | twoEntryPoints
  | entrySignature (signature : String)
  | entryWithoutBody (name : String)
  -- variables
  | variableType (type : Ty)
  | initializerType (type : Ty) (name : String) (actual : Ty)
  | initializerNotConstant (name : String)
  | initializerMissing (name : String)
  | globalRedefined (name : String)
  | localRedefined (name : String)
  -- statements
  | conditionType (type : Ty)
  | switchType (type : Ty)
  | caseNotConstant
  | caseType (type expected : Ty)
  | duplicateCase
  | duplicateDefault
  | declarationSkipped (name : String)
  | misplacedLabel
  | misplacedBreak
  | misplacedContinue
  | valueFromVoid
  | returnType (type declared : Ty)
  | returnWithoutValue (declared : Ty)
  | unreachable
  -- expressions
  | stringTooLong (length : Nat)
  | undefinedSymbol (name : String)
  | binaryOperands (op : BinOp) (lhs rhs : Ty)
  | unaryOperand (type : Ty)
  | stepTarget
  | stepType (type : Ty)
  | assignmentType (value target : Ty)
  | compoundOperands (op : BinOp) (target value : Ty)
  | unknownField (type : Ty) (field : String)
  | noFields (type : Ty)
  | branchTypes (yes no : Ty)
  | divisionByZero
  | notAssignable
  | constantAssigned
  -- calls
  | undefinedFunction (name : String)
  | missingBody (name : String)
  | arity (name : String) (required total given : Nat)
  | actionArgument
  | argumentType (actual : Ty) (name : String) (expected : Ty)
  deriving DecidableEq, Repr

namespace Problem

def severity : Problem → Severity
  | unreachable => .warning
  | _ => .error

def code : Problem → DiagCode
  | unknownStruct _ | unknownEngineType _ _ => .unknownType
  | structRedefined _ | fieldRedefined _ | engineFunctionRedeclared _ | functionRedefined _
  | paramRedefined _ | globalRedefined _ | localRedefined _ => .redefinition
  | fieldType _ _ | actionResult | paramType _ _ | defaultType _ _ _ | defaultOperands
  | variableType _ | initializerType _ _ _ | conditionType _ | switchType _ | caseType _ _
  | valueFromVoid | returnType _ _ | returnWithoutValue _ | binaryOperands _ _ _ | unaryOperand _
  | stepType _ | assignmentType _ _ | compoundOperands _ _ _ | noFields _ | branchTypes _ _
  | argumentType _ _ _ => .typeMismatch
  | defaultDivision | divisionByZero => .divisionByZero
  | defaultNotConstant _ => .nonConstantDefault
  | signatureMismatch _ => .signatureMismatch
  | missingReturn _ => .missingReturn
  | twoEntryPoints | entrySignature _ => .invalidEntryPoint
  | entryWithoutBody _ | missingBody _ => .missingFunctionBody
  | initializerNotConstant _ | initializerMissing _ => .nonConstantInitializer
  | caseNotConstant => .nonConstantCaseLabel
  | duplicateCase | duplicateDefault => .duplicateSwitchLabel
  | declarationSkipped _ => .declarationSkippedByCase
  | misplacedLabel | misplacedBreak | misplacedContinue => .misplacedJump
  | unreachable => .unreachableCode
  | stringTooLong _ => .stringTooLong
  | undefinedSymbol _ | undefinedFunction _ => .undefinedSymbol
  | stepTarget | notAssignable | constantAssigned => .notAnLvalue
  | unknownField _ _ => .unknownField
  | arity _ _ _ _ => .arityMismatch
  | actionArgument => .invalidActionArgument

def arityText (required total : Nat) : String :=
  if required = total then toString required else toString required ++ " to " ++ toString total

def message : Problem → String
  | unknownStruct name => "unknown structure '" ++ name ++ "'"
  | unknownEngineType name version =>
    "engine type '" ++ name ++ "' is not declared by engine table " ++ version
  | structRedefined name => "structure '" ++ name ++ "' is already defined"
  | fieldType field type => "field '" ++ field ++ "' cannot have type " ++ type.text
  | fieldRedefined field => "field '" ++ field ++ "' is already defined"
  | engineFunctionRedeclared name => "'" ++ name ++ "' is already declared as an engine function"
  | actionResult => "functions cannot return action"
  | paramType param type => "parameter '" ++ param ++ "' cannot have type " ++ type.text
  | defaultType param actual expected =>
    "default value of '" ++ param ++ "' is " ++ actual.text ++ ", expected " ++ expected.text
  | defaultDivision => "division by zero in default value"
  | defaultOperands => "invalid operand types in default value"
  | defaultNotConstant param => "default value of '" ++ param ++ "' is not a constant"
  | signatureMismatch name => "'" ++ name ++ "' does not match its earlier declaration"
  | functionRedefined name => "function '" ++ name ++ "' is already defined"
  | paramRedefined param => "parameter '" ++ param ++ "' is already defined"
  | missingReturn name => "not every path through '" ++ name ++ "' returns a value"
  | twoEntryPoints => "a script cannot define both 'main' and 'StartingConditional'"
  | entrySignature signature => "entry point must be declared '" ++ signature ++ "'"
  | entryWithoutBody name => "entry point '" ++ name ++ "' has no body"
  | variableType type => "variables cannot have type " ++ type.text
  | initializerType type name actual =>
    "cannot initialize " ++ type.text ++ " '" ++ name ++ "' with " ++ actual.text
  | initializerNotConstant name => "constant '" ++ name ++ "' needs a constant value"
  | initializerMissing name => "constant '" ++ name ++ "' needs a value"
  | globalRedefined name => "global '" ++ name ++ "' is already defined"
  | localRedefined name => "'" ++ name ++ "' is already defined in this scope"
  | conditionType type => "condition must be int, found " ++ type.text
  | switchType type => "switch value must be int or string, found " ++ type.text
  | caseNotConstant => "case label is not a constant"
  | caseType type expected =>
    "case label is " ++ type.text ++ ", switch value is " ++ expected.text
  | duplicateCase => "duplicate case label"
  | duplicateDefault => "duplicate 'default' label"
  | declarationSkipped name => "declaration of '" ++ name ++ "' is skipped by a later case label"
  | misplacedLabel => "label is not directly inside a switch"
  | misplacedBreak => "'break' outside of a loop or switch"
  | misplacedContinue => "'continue' outside of a loop"
  | valueFromVoid => "void function cannot return a value"
  | returnType type declared =>
    "returning " ++ type.text ++ " from a function declared " ++ declared.text
  | returnWithoutValue declared => "function must return a " ++ declared.text ++ " value"
  | unreachable => "statement is never executed"
  | stringTooLong length =>
    "string constant of " ++ toString length ++ " bytes exceeds " ++ toString maxStringLength ++
      " bytes"
  | undefinedSymbol name => "undefined symbol '" ++ name ++ "'"
  | binaryOperands op lhs rhs =>
    "operator '" ++ op.text ++ "' cannot be applied to " ++ lhs.text ++ " and " ++ rhs.text
  | unaryOperand type => "invalid operand type " ++ type.text
  | stepTarget => "increment target must be a variable"
  | stepType type => "cannot increment " ++ type.text
  | assignmentType value target => "cannot assign " ++ value.text ++ " to " ++ target.text
  | compoundOperands op target value =>
    "operator '" ++ op.text ++ "=' cannot be applied to " ++ target.text ++ " and " ++ value.text
  | unknownField type field => type.text ++ " has no field '" ++ field ++ "'"
  | noFields type => type.text ++ " has no fields"
  | branchTypes yes no =>
    "conditional branches have different types " ++ yes.text ++ " and " ++ no.text
  | divisionByZero => "division by zero"
  | notAssignable => "expression cannot be assigned to"
  | constantAssigned => "constant cannot be assigned to"
  | undefinedFunction name => "undefined function '" ++ name ++ "'"
  | missingBody name => "'" ++ name ++ "' is declared but never defined"
  | arity name required total given =>
    "'" ++ name ++ "' takes " ++ arityText required total ++ " arguments, " ++ toString given ++
      " given"
  | actionArgument => "action argument must be a function call"
  | argumentType actual name expected =>
    "argument is " ++ actual.text ++ ", '" ++ name ++ "' expects " ++ expected.text

end Problem

structure Finding where
  problem : Problem
  pos : Pos
  deriving DecidableEq, Repr

def Finding.diagnostic (f : Finding) : Diagnostic :=
  { stage := .analyze, severity := f.problem.severity, code := f.problem.code,
    message := f.problem.message, pos := some f.pos }

end Nwscript
