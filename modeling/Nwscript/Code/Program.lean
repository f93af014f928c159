import Nwscript.Code.Stmt

/-! # Code of programs

A unit starts with a loader that calls the code for the global variables, or the entry function if
there are none. Only functions that are called get code; they stand in the order of their
definitions, and the entry function comes last. -/

namespace Nwscript

def loaderName : String := "#loader"

def globalsName : String := "#globals"

/-- Put a global variable above the others, unless it is a constant. -/
def GlobalLayout.add (a : Analysis) (layout : GlobalLayout) (var : VarId) : GlobalLayout :=
  match a.vars[var]? with
  | some info =>
    if info.isConst then layout
    else
      { offsets := (var, layout.size) :: layout.offsets
        size := wrap32 (layout.size + a.sizeOf info.type) }
  | none => layout

def GlobalLayout.ofAnalysis (a : Analysis) : GlobalLayout := a.globals.foldl (GlobalLayout.add a) {}

namespace Gen

def begin_ (locals : List (VarId × Int)) : Gen Unit :=
  modify fun s => { s with depth := 0, locals, labelDepths := [] }

/-! ## The loader -/

/-- The cell for the result of a script that answers a question. -/
def loaderResult (entry : Option (EntryPoint × Label)) : List Op :=
  match entry with
  | some (e, _) => if e.kind = .startingConditional then [.instr (.reserve TypeByte.int)] else []
  | none => []

/-- The call of the code for the global variables, or of the entry function if there are none. -/
def loaderCall (entry : Option (EntryPoint × Label)) (globals : Option Label) : List Op :=
  match globals, entry with
  | some target, _ => [.jump .call target]
  | none, some (_, target) => [.jump .call target]
  | none, none => []

def loader (entry : Option (EntryPoint × Label)) (globals : Option Label) : Gen Routine := do
  let label ← newLabel
  return { name := loaderName, label,
           ops := [.mark label] ++ loaderResult entry ++ loaderCall entry globals ++ [.instr .ret] }

/-! ## Global variables -/

def globalDeclarators (program : Program) : List Declarator :=
  program.flatMap fun
    | .global decl => if decl.isConst then [] else decl.vars
    | _ => []

def reserveGlobal (c : GenContext) (decl : Declarator) : Gen (List Op) := do
  let var ← declVar c decl.node.id
  reserve c (← varInfo c var).type

def initGlobal (c : GenContext) (f : Frame) (decl : Declarator) : Gen (List Op) := do
  match decl.init with
  | none => return []
  | some init =>
    let var ← declVar c decl.node.id
    let size := c.analysis.sizeOf (← varInfo c var).type
    let value ← expr c f init
    let copy ← store c var 0 size
    return value ++ copy ++ (← moveSp (-size))

def callEntry : Option (EntryPoint × Label) → Gen (List Op)
  | none => return []
  | some (entry, label) =>
    match entry.kind with
    | .main => emitCall (.jump .call label) 0
    | .startingConditional => do
      let result ← emit (.reserve TypeByte.int)
      let call ← emitCall (.jump .call label) 0
      let offset ← fit (-cellSize - (← depth))
      let copy ← emit (.copyDown .stack (.ofInt offset) (.ofInt cellSize))
      return result ++ call ++ copy ++ (← moveSp (-cellSize))

def popGlobals (c : GenContext) : Gen (List Op) :=
  if 0 < c.globals.size then moveSp (-c.globals.size) else return []

/-- The routine for the global variables: reserve all of them, point the base pointer at them, run
the initializers, and call the entry function. -/
def globalsRoutine (c : GenContext) (program : Program) (label : Label)
    (entry : Option (EntryPoint × Label)) : Gen Routine := do
  begin_ []
  let decls := globalDeclarators program
  let cells ← sequence (decls.map (reserveGlobal c))
  checkDepth c.globals.size globalsName
  let save ← emit .saveBp
  let frame : Frame := { exit := label }
  let inits ← sequence (decls.map (initGlobal c frame))
  let call ← callEntry entry
  let restore ← emit .restoreBp
  let pop ← popGlobals c
  let ret ← emit .ret
  checkDepth 0 globalsName
  return { name := globalsName, label,
           ops := [.mark label] ++ cells ++ save ++ inits ++ call ++ restore ++ pop ++ ret }

/-! ## Functions -/

def paramSlots (c : GenContext) (bottom : Int) : List Param → Gen (List (VarId × Int) × Int)
  | [] => return ([], bottom)
  | p :: ps => do
    let var ← declVar c p.node.id
    let below ← fit (bottom - c.analysis.sizeOf (← varInfo c var).type)
    let (slots, bottom) ← paramSlots c below ps
    return ((var, below) :: slots, bottom)

/-- The frame of a function whose parameters reach down to a bottom. The slot of the result is below
them. -/
def functionFrame (c : GenContext) (info : FuncInfo) (bottom : Int) (exit : Label) : Frame :=
  let size := c.analysis.sizeOf info.ret
  { paramsSize := -bottom
    result := if 0 < size then some (bottom - size, size) else none
    exit }

def popParams (bottom : Int) : List Op :=
  if bottom < 0 then [.instr (.moveSp (.ofInt bottom))] else []

def function (c : GenContext) (program : Program) (func : FuncId) (index : Nat) : Gen Routine := do
  match program[index]? with
  | some (.function decl body) =>
    let info ← orFault (.noDefinition func) c.analysis.functions[func]?
    let label ← funcLabel func
    let (slots, bottom) ← paramSlots c 0 decl.params
    begin_ slots
    let exit ← newLabel
    let ops ← block c (functionFrame c info bottom exit) body
    let here ← mark exit
    checkDepth 0 info.name
    return { name := info.name, label,
             ops := [.mark label] ++ ops ++ here ++ popParams bottom ++ [.instr .ret] }
  | _ => throw (.notAFunction index)

structure PlacedRoutine where
  func : FuncId
  /-- The place of the item that defines the function. -/
  index : Nat
  routine : Routine

/-- The routines of the functions in the queue and of those that they call. A function enters the
queue once, so the number of functions bounds the steps. -/
def drain (c : GenContext) (program : Program) : Nat → Gen (List PlacedRoutine)
  | 0 => do
    if (← get).queue.isEmpty then return [] else throw .tooManyFunctions
  | steps + 1 => do
    match (← get).queue with
    | [] => return []
    | func :: queue =>
      modify fun s => { s with queue }
      let index ← orFault (.noDefinition func) (c.analysis.definition? func)
      let routine ← function c program func index
      return ⟨func, index, routine⟩ :: (← drain c program steps)

def precedes (entry : Option FuncId) (a b : PlacedRoutine) : Bool :=
  let isLast (p : PlacedRoutine) : Bool := entry == some p.func
  if isLast a == isLast b then a.index ≤ b.index else isLast b

def entryLabel (c : GenContext) : Gen (Option (EntryPoint × Label)) :=
  match c.analysis.entry with
  | some e => do return some (e, ← funcLabel e.func)
  | none => return none

def globalsLabel (c : GenContext) : Gen (Option Label) :=
  if 0 < c.globals.size then some <$> newLabel else return none

def initRoutines (c : GenContext) (items : Program) (entry : Option (EntryPoint × Label)) :
    Option Label → Gen (List Routine)
  | some label => do return [← globalsRoutine c items label entry]
  | none => return []

def program (c : GenContext) (items : Program) : Gen Code := do
  let entry ← entryLabel c
  let globals ← globalsLabel c
  let start ← loader entry globals
  let init ← initRoutines c items entry globals
  let functions ← drain c items c.analysis.functions.size
  let sorted := functions.mergeSort (precedes (entry.map fun e => e.1.func))
  return { routines := [start] ++ init ++ sorted.map PlacedRoutine.routine
           globalsSize := c.globals.size
           entry := entry.map Prod.snd }

end Gen

def generate (engine : EngineTable) (program : Program) (analysis : Analysis) :
    Except GenFault Code :=
  let c : GenContext := { analysis, engine, globals := .ofAnalysis analysis }
  match Gen.program c program {} with
  | .ok (code, _) => .ok code
  | .error fault => .error fault

end Nwscript
