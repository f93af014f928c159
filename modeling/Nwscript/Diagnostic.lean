import Nwscript.Source.Position

/-! # Diagnostics

Problems of a unit that do not stop its compilation at once: stage, severity, a stable code, a
message, and the place with its chain of includes. -/

namespace Nwscript

inductive Stage where
  | including
  | lex
  | parse
  | analyze
  | generate
  | emit
  deriving DecidableEq, Repr

def Stage.text : Stage → String
  | .including => "include"
  | .lex => "lex"
  | .parse => "parse"
  | .analyze => "analyze"
  | .generate => "generate"
  | .emit => "emit"

def Stage.rank : Stage → Nat
  | .including => 0
  | .lex => 1
  | .parse => 2
  | .analyze => 3
  | .generate => 4
  | .emit => 5

def Stage.all : List Stage := [.including, .lex, .parse, .analyze, .generate, .emit]

inductive Severity where
  | info
  | warning
  | error
  deriving DecidableEq, Repr

def Severity.text : Severity → String
  | .info => "info"
  | .warning => "warning"
  | .error => "error"

def Severity.all : List Severity := [.info, .warning, .error]

inductive DiagCode where
  | resolvedFromBundledLibrary
  | unresolvedInclude
  | includeTooDeep
  | io
  | unterminatedString
  | unterminatedComment
  | malformedNumber
  | invalidEscape
  | unknownCharacter
  | malformedDirective
  | unexpectedToken
  | nonTrailingDefault
  | undefinedSymbol
  | unknownType
  | arityMismatch
  | typeMismatch
  | notAnLvalue
  | nonConstantCaseLabel
  | nonConstantDefault
  | nonConstantInitializer
  | duplicateSwitchLabel
  | unknownField
  | redefinition
  | signatureMismatch
  | misplacedJump
  | missingReturn
  | declarationSkippedByCase
  | invalidActionArgument
  | divisionByZero
  | stringTooLong
  | missingFunctionBody
  | invalidEntryPoint
  | unreachableCode
  | internal
  deriving DecidableEq, Repr

namespace DiagCode

def text : DiagCode → String
  | resolvedFromBundledLibrary => "resolved-from-bundled-library"
  | unresolvedInclude => "unresolved-include"
  | includeTooDeep => "include-too-deep"
  | io => "io"
  | unterminatedString => "unterminated-string"
  | unterminatedComment => "unterminated-comment"
  | malformedNumber => "malformed-number"
  | invalidEscape => "invalid-escape"
  | unknownCharacter => "unknown-character"
  | malformedDirective => "malformed-directive"
  | unexpectedToken => "unexpected-token"
  | nonTrailingDefault => "non-trailing-default"
  | undefinedSymbol => "undefined-symbol"
  | unknownType => "unknown-type"
  | arityMismatch => "arity-mismatch"
  | typeMismatch => "type-mismatch"
  | notAnLvalue => "not-an-lvalue"
  | nonConstantCaseLabel => "non-constant-case-label"
  | nonConstantDefault => "non-constant-default"
  | nonConstantInitializer => "non-constant-initializer"
  | duplicateSwitchLabel => "duplicate-switch-label"
  | unknownField => "unknown-field"
  | redefinition => "redefinition"
  | signatureMismatch => "signature-mismatch"
  | misplacedJump => "misplaced-jump"
  | missingReturn => "missing-return"
  | declarationSkippedByCase => "declaration-skipped-by-case"
  | invalidActionArgument => "invalid-action-argument"
  | divisionByZero => "division-by-zero"
  | stringTooLong => "string-too-long"
  | missingFunctionBody => "missing-function-body"
  | invalidEntryPoint => "invalid-entry-point"
  | unreachableCode => "unreachable-code"
  | internal => "internal"

def all : List DiagCode :=
  [resolvedFromBundledLibrary, unresolvedInclude, includeTooDeep, io, unterminatedString,
    unterminatedComment, malformedNumber, invalidEscape, unknownCharacter, malformedDirective,
    unexpectedToken, nonTrailingDefault, undefinedSymbol, unknownType, arityMismatch, typeMismatch,
    notAnLvalue, nonConstantCaseLabel, nonConstantDefault, nonConstantInitializer,
    duplicateSwitchLabel, unknownField, redefinition, signatureMismatch, misplacedJump,
    missingReturn, declarationSkippedByCase, invalidActionArgument, divisionByZero, stringTooLong,
    missingFunctionBody, invalidEntryPoint, unreachableCode, internal]

end DiagCode

structure Diagnostic where
  stage : Stage
  severity : Severity
  code : DiagCode
  message : String
  /-- Names of the files from the entry to the one the problem is in. -/
  chain : List String := []
  /-- None for problems of the unit as a whole. -/
  pos : Option Pos := none
  deriving DecidableEq, Repr

namespace Diagnostic

def isError (d : Diagnostic) : Bool := d.severity == .error

/-- Whether the diagnostic stops the unit before code generation. -/
def blocks (warningsAsErrors : Bool) (d : Diagnostic) : Bool :=
  match d.severity with
  | .error => true
  | .warning => warningsAsErrors
  | .info => false

/-- The file and place a report begins with. Line 0 stands for no place. -/
def heading (d : Diagnostic) : String :=
  match d.chain.getLast? with
  | none => ""
  | some name =>
    match d.pos with
    | some p => if 0 < p.line then name ++ ":" ++ p.text ++ ": " else name ++ ": "
    | none => name ++ ": "

/-- The report of a diagnostic: one line, and one for each enclosing file. -/
def text (d : Diagnostic) : String :=
  let includers := d.chain.reverse.drop 1
  d.heading ++ d.severity.text ++ "[" ++ d.code.text ++ "]: " ++ d.message ++
    String.join (includers.map fun name => "\n    included from " ++ name)

end Diagnostic

def countSeverity (ds : List Diagnostic) (severity : Severity) : Nat :=
  ds.countP fun d => d.severity == severity

/-- Whether a unit with these diagnostics must stop before code generation. -/
def blocksGeneration (ds : List Diagnostic) (warningsAsErrors : Bool) : Bool :=
  ds.any (Diagnostic.blocks warningsAsErrors)

end Nwscript
