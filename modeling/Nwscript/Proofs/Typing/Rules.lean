import Mathlib
import Nwscript.Check.Program
import Nwscript.Proofs.Tree

/-! # Typing rules

What the tables of a program without errors say about its nodes, as rules for one node at a time: the
type and the value of an expression follow from those that the tables give to its parts. A statement
is judged with the variables that are visible where it stands. -/

open List Option

namespace Nwscript

def Ty.HasSlot : Ty → Prop
  | .engine slot _ => slot.toNat < engineTypeSlots
  | _ => True

namespace Analysis

def typeOf (a : Analysis) (e : Expr) : Option Ty := a.types.get? e.id

def valueOf (a : Analysis) (e : Expr) : Option Value := a.consts.get? e.id

/-- Variables and fields may have the type: it is storable, an engine type has a slot, and a structure
is declared. -/
structure Storable (a : Analysis) (type : Ty) : Prop where
  isStorable : type.isStorable = true
  slot : type.HasSlot
  declared : ∀ name, type = .struct name → a.structs.contains name = true

end Analysis

/-! ## Expressions -/

def Writable (a : Analysis) (e : Expr) : Prop :=
  ∃ var info, a.refs.get? e.id = some var ∧ a.vars[var]? = some info ∧ info.isConst = false

def ArgOk (a : Analysis) (arg : Expr) (type : Ty) : Prop :=
  if type = .action then arg.isCall = true else a.typeOf arg = some type

def ArgsOk (a : Analysis) : List Expr → List Ty → Prop
  | [], _ => True
  | _ :: _, [] => False
  | arg :: args, type :: types => ArgOk a arg type ∧ ArgsOk a args types

variable {a : Analysis} {visible : List VarId} {engine : EngineTable} {e : Expr} {st : Stmt}

theorem ArgsOk.length_le {args : List Expr} {types : List Ty} (h : ArgsOk a args types) :
    args.length ≤ types.length := by
  induction args generalizing types with
  | nil => exact Nat.zero_le _
  | cons arg args ih =>
    cases types with
    | nil => cases h
    | cons type types => exact Nat.succ_le_succ (ih h.2)

theorem toOption_eq_some {ε α : Type} {x : Except ε α} {a : α} (h : x.toOption = some a) : x = .ok a := by
  cases x with
  | error reason => cases h
  | ok b => rw [Option.some.inj h]

def foldedBinary (op : BinOp) (lhs rhs : Option Value) : Option Value :=
  lhs.bind fun x => rhs.bind fun y => (foldBinary op x y).toOption

def foldedUnary (op : UnOp) (operand : Option Value) : Option Value :=
  operand.bind fun x => (foldUnary op x).toOption

def foldedChoice (cond yes no : Option Value) : Option Value :=
  match cond with
  | some (.int n) => if n != 0 then yes else no
  | _ => none

def foldedField (offset : Int) : Option Value → Option Value
  | some (.vector x y z) => (vectorComponent? x y z offset).map .float
  | _ => none

theorem StructTable.component_of_field? {structs : StructTable} {name : String} {offset : Int} {type : Ty}
    (h : structs.field? .vector name = some (offset, type)) (x y z : Single) :
    type = .float ∧ ∃ component, vectorComponent? x y z offset = some component := by
  simp only [StructTable.field?] at h
  repeat' split at h
  all_goals cases h
  all_goals exact ⟨rfl, _, rfl⟩

/-- The type and the value that an expression has by what the tables say about its parts. -/
inductive TypeRule (engine : EngineTable) (a : Analysis) : Expr → Ty → Option Value → Prop where
  | literal (node : Node) (value : Value) :
      TypeRule engine a (.literal node value) value.type (some value)
  | variable {node name var info} :
      a.refs.get? node.id = some var → a.vars[var]? = some info →
      TypeRule engine a (.ident node name) info.type info.value
  | engineConstant {node name value} :
      a.refs.get? node.id = none → engine.constant? name = some value →
      TypeRule engine a (.ident node name) value.type (some value)
  | binary {node op lhs rhs left right type} :
      a.typeOf lhs = some left → a.typeOf rhs = some right →
      binaryType? op left right = some type →
      TypeRule engine a (.binary node op lhs rhs) type
        (foldedBinary op (a.valueOf lhs) (a.valueOf rhs))
  | unary {node op operand type} :
      a.typeOf operand = some type → unaryApplies op type = true →
      TypeRule engine a (.unary node op operand) type (foldedUnary op (a.valueOf operand))
  | step {node s order target} :
      target.isIdent = true → Writable a target → a.typeOf target = some .int →
      TypeRule engine a (.step node s order target) .int none
  | userCall {node name args func f} :
      a.calls.get? node.id = some (.user func) → a.functions[func]? = some f → f.defined = true →
      f.required ≤ args.length → ArgsOk a args (f.params.map FuncParam.type) →
      TypeRule engine a (.call node name args) f.ret none
  | engineCall {node name args f} :
      a.calls.get? node.id = some (.engine f.ordinal) → engine.function? name = some f →
      ArgsOk a args (f.params.map EngineParam.type) →
      TypeRule engine a (.call node name args) f.ret none
  | assign {node target value type} :
      target.root.isIdent = true → Writable a target.root →
      a.typeOf target = some type → a.typeOf value = some type →
      TypeRule engine a (.assign node none target value) type none
  | compound {node op target value type actual} :
      target.root.isIdent = true → Writable a target.root →
      a.typeOf target = some type → a.typeOf value = some actual →
      binaryType? op type actual = some type →
      TypeRule engine a (.assign node (some op) target value) type none
  | field {node base name baseType type offset} :
      a.typeOf base = some baseType → a.structs.field? baseType name = some (offset, type) →
      TypeRule engine a (.field node base name) type (foldedField offset (a.valueOf base))
  | conditional {node cond yes no type} :
      a.typeOf cond = some .int → a.typeOf yes = some type → a.typeOf no = some type →
      TypeRule engine a (.conditional node cond yes no) type
        (foldedChoice (a.valueOf cond) (a.valueOf yes) (a.valueOf no))

def NodeOk (engine : EngineTable) (a : Analysis) (e : Expr) : Prop :=
  ∃ type value, TypeRule engine a e type value ∧ a.typeOf e = some type ∧ a.valueOf e = value

def ExprOk (engine : EngineTable) (a : Analysis) (e : Expr) : Prop :=
  ∀ p ∈ e.parts, NodeOk engine a p

def Scoped (a : Analysis) (visible : List VarId) (e : Expr) : Prop :=
  ∀ p ∈ e.parts, ∀ var, a.refs.get? p.id = some var → var ∈ visible ∨ var ∈ a.globals

structure Usable (engine : EngineTable) (a : Analysis) (visible : List VarId) (e : Expr) : Prop where
  ok : ExprOk engine a e
  inScope : Scoped a visible e

structure UsableAs (engine : EngineTable) (a : Analysis) (visible : List VarId) (type : Ty) (e : Expr) :
    Prop extends Usable engine a visible e where
  typeOf : a.typeOf e = some type

theorem usable_iff : Usable engine a visible e ↔ NodeOk engine a e ∧
      (∀ var, a.refs.get? e.id = some var → var ∈ visible ∨ var ∈ a.globals) ∧
      ∀ c ∈ e.children, Usable engine a visible c := by
  constructor
  · intro h
    refine ⟨h.ok e e.self_mem_parts, h.inScope e e.self_mem_parts, fun c hc => ⟨?_, ?_⟩⟩
    · exact fun p hp => h.ok p (Expr.mem_parts_iff.mpr (.inr ⟨c, hc, hp⟩))
    · exact fun p hp => h.inScope p (Expr.mem_parts_iff.mpr (.inr ⟨c, hc, hp⟩))
  · rintro ⟨hnode, hscope, hchildren⟩
    refine ⟨fun p hp => ?_, fun p hp => ?_⟩
    · rcases Expr.mem_parts_iff.mp hp with rfl | ⟨c, hc, hp⟩
      · exact hnode
      · exact (hchildren c hc).ok p hp
    · rcases Expr.mem_parts_iff.mp hp with rfl | ⟨c, hc, hp⟩
      · exact hscope
      · exact (hchildren c hc).inScope p hp

namespace Usable

variable {engine : EngineTable} {a : Analysis} {visible : List VarId} {e : Expr}

theorem child (h : Usable engine a visible e) {c : Expr} (hc : c ∈ e.children) :
    Usable engine a visible c := (usable_iff.mp h).2.2 c hc

theorem typeOf_isSome (h : Usable engine a visible e) : ∃ type, a.typeOf e = some type := by
  obtain ⟨type, -, -, htype, -⟩ := (usable_iff.mp h).1
  exact ⟨type, htype⟩

theorem rule (h : Usable engine a visible e) {type : Ty} (htype : a.typeOf e = some type) :
    TypeRule engine a e type (a.valueOf e) := by
  obtain ⟨type', value, hrule, htype', rfl⟩ := (usable_iff.mp h).1
  cases htype.symm.trans htype'
  exact hrule

theorem exists_rule (h : Usable engine a visible e) {type : Ty} (htype : a.typeOf e = some type) :
    ∃ value, TypeRule engine a e type value := ⟨_, h.rule htype⟩

theorem ref (h : Usable engine a visible e) {var : VarId} (href : a.refs.get? e.id = some var) :
    var ∈ visible ∨ var ∈ a.globals := h.inScope e e.self_mem_parts var href

end Usable

/-! ## Statements -/

/-- A declarator introduces a variable of a kind that is new, with an initializer of its type. -/
structure DeclaresVar (engine : EngineTable) (a : Analysis) (kind : VarKind) (visible : List VarId)
    (d : Declarator) (var : VarId) (info : VarInfo) : Prop where
  decl : a.decls.get? d.node.id = some var
  fresh : var ∉ visible
  known : a.vars[var]? = some info
  storable : a.Storable info.type
  init : ∀ e, d.init = some e → UsableAs engine a visible info.type e
  kind : info.kind = kind

def DeclaratorsOk (engine : EngineTable) (a : Analysis) (visible : List VarId) :
    List Declarator → Prop
  | [] => True
  | d :: ds => ∃ var info, DeclaresVar engine a .local visible d var info ∧
      DeclaratorsOk engine a (var :: visible) ds

def openedBy (a : Analysis) (visible : List VarId) : List Declarator → List VarId
  | [] => visible
  | d :: ds => openedBy a ((a.decls.get? d.node.id).toList ++ visible) ds

def Stmt.opens (a : Analysis) (visible : List VarId) : Stmt → List VarId
  | .var _ decl => openedBy a visible decl.vars
  | _ => visible

def ReturnOk (engine : EngineTable) (a : Analysis) (ret : Ty) (visible : List VarId) :
    Option Expr → Prop
  | some e => ret ≠ .void ∧ UsableAs engine a visible ret e
  | none => ret = .void

structure CaseOk (engine : EngineTable) (a : Analysis) (visible : List VarId) (type : Ty)
    (label : Expr) : Prop extends UsableAs engine a visible type label where
  constant : (a.valueOf label).isSome = true

mutual

def StmtOk (engine : EngineTable) (a : Analysis) (ctx : BodyContext) (visible : List VarId) :
    Stmt → Prop
  | .block _ body => BlockOk engine a ctx visible body
  | .var _ decl => DeclaratorsOk engine a visible decl.vars
  | .expr _ e => Usable engine a visible e
  | .ifThen _ cond yes =>
    UsableAs engine a visible .int cond ∧ StmtOk engine a ctx visible yes
  | .ifElse _ cond yes no =>
    UsableAs engine a visible .int cond ∧ StmtOk engine a ctx visible yes ∧
      StmtOk engine a ctx visible no
  | .whileLoop _ cond body =>
    UsableAs engine a visible .int cond ∧ StmtOk engine a ctx.inLoop visible body
  | .doWhile _ body cond =>
    StmtOk engine a ctx.inLoop visible body ∧ UsableAs engine a visible .int cond
  | .forLoop _ init cond next body =>
    (∀ e ∈ init, Usable engine a visible e) ∧ (∀ e ∈ cond, UsableAs engine a visible .int e) ∧
      (∀ e ∈ next, Usable engine a visible e) ∧ StmtOk engine a ctx.inLoop visible body
  | .switch _ value body =>
    ∃ type, UsableAs engine a visible type value ∧ (type = .int ∨ type = .string) ∧
      SwitchOk engine a ctx.inSwitch type visible visible body
  | .caseLabel _ _ | .defaultLabel _ => False
  | .ret _ value => ReturnOk engine a ctx.ret visible value
  | .breakOut _ => ctx.breakables ≠ 0
  | .continueLoop _ => ctx.loops ≠ 0
  | .empty _ => True

def BlockOk (engine : EngineTable) (a : Analysis) (ctx : BodyContext) (visible : List VarId) :
    List Stmt → Prop
  | [] => True
  | s :: ss => StmtOk engine a ctx visible s ∧ BlockOk engine a ctx (s.opens a visible) ss

/-- The statements of a switch. At a label only the variables from outside are visible, and there is
one default label at most. -/
def SwitchOk (engine : EngineTable) (a : Analysis) (ctx : BodyContext) (type : Ty)
    (outer visible : List VarId) : List Stmt → Prop
  | [] => True
  | s :: ss =>
    (match s with
      | .caseLabel _ label => visible = outer ∧ CaseOk engine a visible type label
      | .defaultLabel _ => visible = outer ∧ ss.any Stmt.isDefault = false
      | s => StmtOk engine a ctx visible s) ∧
    SwitchOk engine a ctx type outer (s.opens a visible) ss

end

section Switch

variable {engine : EngineTable} {a : Analysis} {ctx : BodyContext} {type : Ty}
  {outer visible : List VarId} {ss : List Stmt}

theorem switchOk_caseLabel {pos : Pos} {label : Expr} :
    SwitchOk engine a ctx type outer visible (.caseLabel pos label :: ss) ↔
      (visible = outer ∧ CaseOk engine a visible type label) ∧
        SwitchOk engine a ctx type outer visible ss := by
  rw [SwitchOk]
  rfl

theorem switchOk_defaultLabel {pos : Pos} :
    SwitchOk engine a ctx type outer visible (.defaultLabel pos :: ss) ↔
      (visible = outer ∧ ss.any Stmt.isDefault = false) ∧
        SwitchOk engine a ctx type outer visible ss := by
  rw [SwitchOk]
  rfl

theorem switchOk_stmt {s : Stmt} (h : s.isLabel = false) :
    SwitchOk engine a ctx type outer visible (s :: ss) ↔ StmtOk engine a ctx visible s ∧
        SwitchOk engine a ctx type outer (s.opens a visible) ss := by
  rw [SwitchOk]
  · rintro pos label rfl
    cases h
  · rintro pos rfl
    cases h

theorem switchOk_rest {s : Stmt} (h : SwitchOk engine a ctx type outer visible (s :: ss)) :
    SwitchOk engine a ctx type outer (s.opens a visible) ss := by
  cases s with
  | caseLabel pos label => exact (switchOk_caseLabel.mp h).2
  | defaultLabel pos => exact (switchOk_defaultLabel.mp h).2
  | _ => exact ((switchOk_stmt rfl).mp h).2

theorem SwitchOk.of_mem (h : SwitchOk engine a ctx type outer visible ss) (hst : st ∈ ss) :
    (∃ inner, StmtOk engine a ctx inner st) ∨
      (∃ pos label inner, st = .caseLabel pos label ∧ CaseOk engine a inner type label) ∨
      ∃ pos, st = .defaultLabel pos := by
  induction ss generalizing visible with
  | nil => cases hst
  | cons first rest ih =>
    rcases mem_cons.mp hst with rfl | hst
    · cases hlabel : st.isLabel with
      | false => exact .inl ⟨visible, ((switchOk_stmt hlabel).mp h).1⟩
      | true =>
        cases st with
        | caseLabel pos label =>
          exact .inr (.inl ⟨pos, label, visible, rfl, (switchOk_caseLabel.mp h).1.2⟩)
        | defaultLabel pos => exact .inr (.inr ⟨pos, rfl⟩)
        | _ => cases hlabel
    · exact ih (switchOk_rest h) hst

end Switch

theorem BlockOk.of_mem {ctx : BodyContext} {body : List Stmt}
    (h : BlockOk engine a ctx visible body) (hst : st ∈ body) :
    ∃ inner, StmtOk engine a ctx inner st := by
  induction body generalizing visible with
  | nil => cases hst
  | cons first rest ih =>
    rw [BlockOk] at h
    rcases mem_cons.mp hst with rfl | hst
    · exact ⟨visible, h.1⟩
    · exact ih h.2 hst

theorem DeclaratorsOk.usable {ds : List Declarator} (h : DeclaratorsOk engine a visible ds)
    {d : Declarator} (hd : d ∈ ds) (he : e ∈ d.init) : ∃ inner, Usable engine a inner e := by
  induction ds generalizing visible with
  | nil => cases hd
  | cons first ds ih =>
    obtain ⟨var, info, hfirst, hrest⟩ := h
    rcases mem_cons.mp hd with rfl | hd
    · exact ⟨visible, (hfirst.init e he).toUsable⟩
    · exact ih hrest hd

theorem StmtOk.usable {ctx : BodyContext} (h : StmtOk engine a ctx visible st) (he : e ∈ st.exprs) :
    ∃ inner, Usable engine a inner e := by
  induction st using Stmt.inductionOn generalizing ctx visible with rw [StmtOk] at h
  | block pos body ih =>
    obtain ⟨st, hst, he⟩ := Stmt.mem_exprsOf.mp he
    obtain ⟨inner, hinner⟩ := h.of_mem hst
    exact ih st hst hinner he
  | var pos decl =>
    obtain ⟨d, hd, hinit⟩ := mem_flatMap.mp he
    exact h.usable hd (mem_toList.mp hinit)
  | expr pos e' =>
    obtain rfl := mem_singleton.mp he
    exact ⟨visible, h⟩
  | ifThen pos cond yes ih =>
    rcases mem_cons.mp he with rfl | he
    · exact ⟨visible, h.1.toUsable⟩
    · exact ih h.2 he
  | ifElse pos cond yes no ihy ihn =>
    rcases mem_cons.mp he with rfl | he
    · exact ⟨visible, h.1.toUsable⟩
    · rcases mem_append.mp he with he | he
      · exact ihy h.2.1 he
      · exact ihn h.2.2 he
  | whileLoop pos cond body ih =>
    rcases mem_cons.mp he with rfl | he
    · exact ⟨visible, h.1.toUsable⟩
    · exact ih h.2 he
  | doWhile pos body cond ih =>
    rcases mem_append.mp he with he | he
    · exact ih h.1 he
    · obtain rfl := mem_singleton.mp he
      exact ⟨visible, h.2.toUsable⟩
  | forLoop pos init cond next body ih =>
    obtain ⟨hinit, hcond, hnext, hbody⟩ := h
    simp only [Stmt.exprs, mem_append, mem_toList] at he
    rcases he with he | he | he | he
    · exact ⟨visible, hinit e he⟩
    · exact ⟨visible, (hcond e he).toUsable⟩
    · exact ⟨visible, hnext e he⟩
    · exact ih hbody he
  | switch pos value body ih =>
    obtain ⟨type, hvalue, -, hbody⟩ := h
    rcases mem_cons.mp he with rfl | he
    · exact ⟨visible, hvalue.toUsable⟩
    · obtain ⟨st, hst, he⟩ := Stmt.mem_exprsOf.mp he
      rcases hbody.of_mem hst with ⟨inner, hinner⟩ | ⟨pos, label, inner, rfl, hlabel⟩ | ⟨pos, rfl⟩
      · exact ih st hst hinner he
      · obtain rfl := mem_singleton.mp he
        exact ⟨inner, hlabel.toUsable⟩
      · cases he
  | ret pos value =>
    cases value with
    | none => cases he
    | some e' =>
      obtain rfl := mem_singleton.mp he
      exact ⟨visible, h.2.toUsable⟩
  | caseLabel pos label =>
    exact h.elim
  | defaultLabel pos | breakOut pos | continueLoop pos | empty pos => cases he

/-! ## Programs -/

/-- The parameters of a function are new variables of the types of its signature; `inner` are the
variables visible behind them. -/
def ParamsOk (a : Analysis) (visible : List VarId) :
    List Param → List FuncParam → List VarId → Prop
  | [], [], inner => inner = visible
  | p :: ps, q :: qs, inner => ∃ var info, a.decls.get? p.node.id = some var ∧ var ∉ visible ∧
      a.vars[var]? = some info ∧ info.type = q.type ∧ info.kind = .param ∧
      ParamsOk a (var :: visible) ps qs inner
  | _, _, _ => False

/-- The body of a function with a signature. Control does not reach its end if it has a result. -/
structure FunctionOk (engine : EngineTable) (a : Analysis) (decl : FunctionDecl) (body : List Stmt)
    (f : FuncInfo) : Prop where
  scope : ∃ visible, ParamsOk a [] decl.params f.params visible ∧
    BlockOk engine a { ret := f.ret } visible body
  returns : f.ret ≠ .void → blockFallsThrough a.consts true body = false

/-- In a list that tells which parameters have a default, those that have one stand at the end. -/
def Trails (hasDefault : List Bool) : Prop := hasDefault.Pairwise fun a b => a = true → b = true

structure SignatureOk (a : Analysis) (f : FuncInfo) : Prop where
  ret : f.ret = .void ∨ a.Storable f.ret
  params : ∀ p ∈ f.params, a.Storable p.type
  defaults : ∀ p ∈ f.params, ∀ v ∈ p.default, v.type = p.type
  trailing : Trails (f.params.map fun p => p.default.isSome)

/-- A variable has a value if it is a constant, and then one of its type. -/
structure VarOk (info : VarInfo) : Prop where
  isConst : info.isConst = info.value.isSome
  type : ∀ v ∈ info.value, v.type = info.type

def Analysis.VarsOk (a : Analysis) : Prop := ∀ (var : VarId) info, a.vars[var]? = some info → VarOk info

def StructsOk : List StructDef → Prop
  | [] => True
  | d :: older =>
    (∀ f ∈ d.fields, f.type.isStorable = true ∧ f.type.HasSlot ∧
      ∀ name, f.type = .struct name → StructTable.contains ⟨older⟩ name = true) ∧
    StructTable.contains ⟨older⟩ d.name = false ∧
    d.size = StructTable.sizeOfFields ⟨older⟩ d.fields ∧ StructsOk older

def Program.globals (p : Program) : List Declarator :=
  p.flatMap fun
    | .global decl => decl.vars
    | _ => []

structure ProgramOk (engine : EngineTable) (a : Analysis) (program : Program) : Prop where
  structs : StructsOk a.structs.defs
  vars : ∀ (var : VarId) info, a.vars[var]? = some info → VarOk info
  signatures : ∀ (func : FuncId) f, a.functions[func]? = some f → SignatureOk a f
  defined : ∀ (func : FuncId) f, a.functions[func]? = some f → f.defined = true → ∃ index decl body,
    a.definition? func = some index ∧ program[index]? = some (.function decl body) ∧
    FunctionOk engine a decl body f
  globals : a.globals = (Program.globals program).filterMap fun d => a.decls.get? d.node.id
  globalsNodup : a.globals.Nodup
  global : ∀ decl, .global decl ∈ program → ∀ d ∈ decl.vars, ∃ var info,
    DeclaresVar engine a .global [] d var info ∧ info.isConst = decl.isConst
  entry : ∀ e, a.entry = some e → ∃ f, a.functions[e.func]? = some f ∧ f.defined = true ∧
    f.params = [] ∧ f.ret = e.kind.ret

end Nwscript
