import Nwscript.Check.Stmt

/-! # Checking programs

Structures and functions are collected first, so that functions may be called before they appear.
Then global variables and bodies are checked in the order of the items. -/

namespace Nwscript
namespace Check

/-! ## Structures and early constants -/

/-- The fields of a structure; those with an error are left out. -/
def structFields (engine : EngineTable) : List FieldDecl → List Field → Check (List Field)
  | [], fields => return fields
  | decl :: decls, fields => do
    match ← resolveType engine decl.pos decl.type with
    | none => structFields engine decls fields
    | some type =>
      if !type.isStorable then
        report decl.pos (.fieldType decl.name type)
        structFields engine decls fields
      else if fields.any fun f => f.name == decl.name then
        report decl.pos (.fieldRedefined decl.name)
        structFields engine decls fields
      else structFields engine decls (fields ++ [⟨decl.name, type⟩])

def collectStruct (engine : EngineTable) (decl : StructDecl) : Check Unit := do
  if (← analysis).structs.contains decl.name then report decl.pos (.structRedefined decl.name)
  else
    let fields ← structFields engine decl.fields []
    record fun a => { a with structs := a.structs.insert decl.name fields }

/-- The constants known before the check, the last one first. They serve for default values. -/
abbrev EarlyConsts := List (String × Value)

def evalEarly (engine : EngineTable) (early : EarlyConsts) (e : Expr) : Except EvalFault Value :=
  evalConst (fun name => (early.lookup name).or (engine.constant? name)) e

def addEarly (engine : EngineTable) (early : EarlyConsts) (var : Declarator) : EarlyConsts :=
  match var.init with
  | some init =>
    match evalEarly engine early init with
    | .ok value => (var.name, value) :: early
    | .error _ => early
  | none => early

def collectTypes (engine : EngineTable) : EarlyConsts → Program → Check EarlyConsts
  | early, [] => return early
  | early, .struct decl :: items => do
    collectStruct engine decl
    collectTypes engine early items
  | early, .global decl :: items =>
    collectTypes engine (if decl.isConst then decl.vars.foldl (addEarly engine) early else early)
      items
  | early, _ :: items => collectTypes engine early items

/-! ## Functions -/

def defaultValue (engine : EngineTable) (early : EarlyConsts) (param : Param) (type : Ty) :
    Check (Option Value) := do
  match param.default with
  | none => return none
  | some e =>
    match evalEarly engine early e with
    | .ok value =>
      if value.type = type then return some value
      else fail e.pos (.defaultType param.name value.type type)
    | .error .divisionByZero => fail e.pos .defaultDivision
    | .error .typeError => fail e.pos .defaultOperands
    | .error .notConst => fail e.pos (.defaultNotConstant param.name)

def resolveParams (engine : EngineTable) (early : EarlyConsts) :
    List Param → Check (Option (List FuncParam))
  | [] => return some []
  | p :: ps => do
    match ← resolveType engine p.node.pos p.type with
    | none => return none
    | some type =>
      if !type.isStorable then fail p.node.pos (.paramType p.name type)
      else
        let default ← defaultValue engine early p type
        match ← resolveParams engine early ps with
        | some params => return some ({ name := p.name, type, default } :: params)
        | none => return none

def resolveResult (engine : EngineTable) (decl : FunctionDecl) : Check (Option Ty) := do
  match ← resolveType engine decl.pos decl.ret with
  | some .action => fail decl.pos .actionResult
  | some type => return some type
  | none => return none

/-- Whether a declaration has the result and the parameter types of an earlier one. -/
def sameSignature (f : FuncInfo) (ret : Ty) (params : List FuncParam) : Bool :=
  f.ret == ret && f.params.map FuncParam.type == params.map FuncParam.type

/-- Take over the defaults of a later declaration where there is none yet. -/
def mergeDefaults (params new : List FuncParam) : List FuncParam :=
  params.zipWith (fun p q => { p with default := p.default.or q.default }) new

def addFunction (f : FuncInfo) (definition : Option Nat) : Check Unit :=
  record fun a =>
    let id := a.functions.size
    { a with
      functions := a.functions.push f
      definitions := (definition.map fun index => (id, index)).toList ++ a.definitions }

def redeclareFunction (id : FuncId) (f : FuncInfo) (decl : FunctionDecl) (ret : Ty)
    (params : List FuncParam) (definition : Option Nat) : Check Unit := do
  if !sameSignature f ret params then report decl.pos (.signatureMismatch decl.name)
  else if definition.isSome && f.defined then report decl.pos (.functionRedefined decl.name)
  else
    let merged : FuncInfo :=
      { f with defined := f.defined || definition.isSome, params := mergeDefaults f.params params }
    record fun a =>
      { a with
        functions := a.functions.setIfInBounds id merged
        definitions := (definition.map fun index => (id, index)).toList ++ a.definitions }

def declareFunction (engine : EngineTable) (early : EarlyConsts) (decl : FunctionDecl)
    (definition : Option Nat) : Check Unit := do
  if (engine.function? decl.name).isSome then
    report decl.pos (.engineFunctionRedeclared decl.name)
  else
    match ← resolveResult engine decl with
    | none => return
    | some ret =>
      match ← resolveParams engine early decl.params with
      | none => return
      | some params =>
        let a ← analysis
        match a.function? decl.name with
        | none =>
          let defined := definition.isSome
          addFunction { name := decl.name, ret, params, defined, pos := decl.pos } definition
        | some id =>
          match a.functions[id]? with
          | some f => redeclareFunction id f decl ret params definition
          | none => return

def collectFunctions (engine : EngineTable) (early : EarlyConsts) :
    Nat → Program → Check Unit
  | _, [] => return
  | index, item :: items => do
    match item with
    | .prototype decl => declareFunction engine early decl none
    | .function decl _ => declareFunction engine early decl (some index)
    | _ => pure ()
    collectFunctions engine early (index + 1) items

/-! ## Bodies -/

def declareParams : List Param → List FuncParam → Check Unit
  | p :: ps, q :: qs => do
    let pos := p.node.pos
    let id ← newVar
      { name := p.name, type := q.type, kind := .param, isConst := false, value := none, pos }
    declareLocal p.name id pos (.paramRedefined p.name)
    recordDecl p.node.id id
    declareParams ps qs
  | _, _ => return

def checkBody (engine : EngineTable) (decl : FunctionDecl) (body : List Stmt) (f : FuncInfo) :
    Check Unit := do
  inScope do
    declareParams decl.params f.params
    checkStmts engine { ret := f.ret } {} body
  if f.ret ≠ .void && blockFallsThrough (← analysis).consts true body then
    report decl.pos (.missingReturn f.name)

def definedBy (name : String) (index : Nat) : Check (Option FuncInfo) := do
  let a ← analysis
  match a.function? name with
  | some id => return if a.definition? id = some index then a.functions[id]? else none
  | none => return none

def checkItems (engine : EngineTable) : Nat → Program → Check Unit
  | _, [] => return
  | index, item :: items => do
    match item with
    | .global decl => checkVarDecl engine .global decl
    | .function decl body =>
      match ← definedBy decl.name index with
      | some f => checkBody engine decl body f
      | none => pure ()
    | _ => pure ()
    checkItems engine (index + 1) items

/-! ## The entry point -/

def candidate (kind : EntryKind) : Check (Option (FuncId × FuncInfo)) := do
  let a ← analysis
  match a.function? kind.name with
  | some id => return a.functions[id]?.map fun f => (id, f)
  | none => return none

def checkCandidate (kind : EntryKind) : Check Unit := do
  match ← candidate kind with
  | none => return
  | some (func, f) =>
    if f.ret ≠ kind.ret || !f.params.isEmpty then report f.pos (.entrySignature kind.signature)
    else if !f.defined then report f.pos (.entryWithoutBody f.name)
    else record fun a => { a with entry := a.entry.or (some { func, kind }) }

def checkEntry : Check Unit := do
  match ← candidate .main, ← candidate .startingConditional with
  | some (_, main), some (_, conditional) =>
    if main.defined && conditional.defined then report conditional.pos .twoEntryPoints
    else
      checkCandidate .main
      checkCandidate .startingConditional
  | _, _ =>
    checkCandidate .main
    checkCandidate .startingConditional

def checkProgram (engine : EngineTable) (program : Program) : Check Unit := do
  let early ← collectTypes engine [] program
  collectFunctions engine early 0 program
  checkItems engine 0 program
  checkEntry

end Check

structure Checked where
  analysis : Analysis
  findings : List Finding
  /-- The check did not come to its end. -/
  stuck : Bool
  deriving Repr

def Checked.diagnostics (c : Checked) : List Diagnostic := c.findings.map Finding.diagnostic

def check (engine : EngineTable) (program : Program) : Checked :=
  let (_, state) := Check.checkProgram engine program {}
  ⟨state.analysis, state.findings.reverse, state.stuck⟩

end Nwscript
