import Nwscript.Proofs.Blind.Bare

/-! # Writing programs

A program written as tokens, with parentheses only where the operators need them. A tree does not keep
the spelling of its literals, so a spelling for each of its literal nodes is given beside it. The
shape of a tree is the tree without the numbers and places of its nodes. -/

open List

namespace Nwscript

/-! ## Shapes -/

def Node.none : Node := ⟨0, {}⟩

namespace Expr

mutual

def shape : Expr → Expr
  | .literal _ value => .literal .none value
  | .ident _ name => .ident .none name
  | .binary _ op lhs rhs => .binary .none op lhs.shape rhs.shape
  | .unary _ op operand => .unary .none op operand.shape
  | .step _ s order target => .step .none s order target.shape
  | .call _ name args => .call .none name (shapeAll args)
  | .assign _ op target value => .assign .none op target.shape value.shape
  | .field _ base name => .field .none base.shape name
  | .conditional _ cond yes no => .conditional .none cond.shape yes.shape no.shape

def shapeAll : List Expr → List Expr
  | [] => []
  | e :: es => e.shape :: shapeAll es

end

@[simp] theorem shapeAll_eq_map (es : List Expr) : shapeAll es = es.map shape := by
  induction es with
  | nil => rfl
  | cons e es ih => rw [shapeAll, ih, map_cons]

end Expr

def Declarator.shape (d : Declarator) : Declarator :=
  { node := .none, name := d.name, init := d.init.map Expr.shape }

def VarDecl.shape (d : VarDecl) : VarDecl :=
  { d with pos := {}, vars := d.vars.map Declarator.shape }

namespace Stmt

mutual

def shape : Stmt → Stmt
  | .block _ body => .block {} (shapeAll body)
  | .var _ decl => .var {} decl.shape
  | .expr _ e => .expr {} e.shape
  | .ifThen _ cond yes => .ifThen {} cond.shape yes.shape
  | .ifElse _ cond yes no => .ifElse {} cond.shape yes.shape no.shape
  | .whileLoop _ cond body => .whileLoop {} cond.shape body.shape
  | .doWhile _ body cond => .doWhile {} body.shape cond.shape
  | .forLoop _ init cond next body =>
    .forLoop {} (init.map Expr.shape) (cond.map Expr.shape) (next.map Expr.shape) body.shape
  | .switch _ value body => .switch {} value.shape (shapeAll body)
  | .caseLabel _ label => .caseLabel {} label.shape
  | .defaultLabel _ => .defaultLabel {}
  | .ret _ value => .ret {} (value.map Expr.shape)
  | .breakOut _ => .breakOut {}
  | .continueLoop _ => .continueLoop {}
  | .empty _ => .empty {}

def shapeAll : List Stmt → List Stmt
  | [] => []
  | s :: ss => s.shape :: shapeAll ss

end

@[simp] theorem shapeAll_eq_map (ss : List Stmt) : shapeAll ss = ss.map shape := by
  induction ss with
  | nil => rfl
  | cons s ss ih => rw [shapeAll, ih, map_cons]

end Stmt

def FieldDecl.shape (d : FieldDecl) : FieldDecl := { d with pos := {} }

def StructDecl.shape (d : StructDecl) : StructDecl :=
  { d with pos := {}, fields := d.fields.map FieldDecl.shape }

def Param.shape (p : Param) : Param :=
  { p with node := .none, default := p.default.map Expr.shape }

def FunctionDecl.shape (d : FunctionDecl) : FunctionDecl :=
  { d with pos := {}, params := d.params.map Param.shape }

def Item.shape : Item → Item
  | .includeLine _ name => .includeLine {} name
  | .defineLine _ name value => .defineLine {} name value
  | .struct decl => .struct decl.shape
  | .prototype decl => .prototype decl.shape
  | .function decl body => .function decl.shape (body.map Stmt.shape)
  | .global decl => .global decl.shape

/-! ## Tokens -/

def Token.word (kind : TokenKind) (text : String) : Token := { kind, text, span := {}, pos := {} }

def Symbol.token (s : Symbol) : Token := .word (.symbol s) (String.ofList s.chars)

def Keyword.token (k : Keyword) : Token := .word (.keyword k) k.text

def nameToken (name : String) : Token := .word .ident name

@[simp] theorem Token.word_kind (kind : TokenKind) (text : String) : (word kind text).kind = kind := rfl

@[simp] theorem Token.word_text (kind : TokenKind) (text : String) : (word kind text).text = text := rfl

@[simp] theorem Symbol.token_kind (s : Symbol) : s.token.kind = .symbol s := rfl

@[simp] theorem Keyword.token_kind (k : Keyword) : k.token.kind = .keyword k := rfl

@[simp] theorem nameToken_kind (name : String) : (nameToken name).kind = .ident := rfl

@[simp] theorem nameToken_text (name : String) : (nameToken name).text = name := rfl

def inParens (ts : List Token) : List Token :=
  Symbol.leftParen.token :: (ts ++ [Symbol.rightParen.token])

def inBraces (ts : List Token) : List Token :=
  Symbol.leftBrace.token :: (ts ++ [Symbol.rightBrace.token])

def commaSeparated : List (List Token) → List Token
  | [] => []
  | [ts] => ts
  | ts :: us :: tss => ts ++ Symbol.comma.token :: commaSeparated (us :: tss)

theorem commaSeparated_cons (ts : List Token) (tss : List (List Token)) :
    commaSeparated (ts :: tss) = ts ++ tss.flatMap (Symbol.comma.token :: ·) := by
  induction tss generalizing ts with
  | nil => rw [commaSeparated, flatMap_nil, append_nil]
  | cons us tss ih => rw [commaSeparated, ih, flatMap_cons, cons_append]

/-! ## Literals -/

inductive SpellsNumber : Single → Token → Prop
  | int {text n} : Literal.intValue? text.toList = some n →
      SpellsNumber (Single.ofInt n.toInt) (.word .intLit text)
  | float {text x} : Literal.floatValue? text.toList = some x →
      SpellsNumber x (.word .floatLit text)

inductive SpellsComponent : Single → List Token → Prop
  | plain {x t} : SpellsNumber x t → SpellsComponent x [t]
  | negated {x t} : SpellsNumber x t →
      SpellsComponent x.neg [Symbol.minus.token, t]

inductive Spells : Value → List Token → Prop
  | int {text n} : Literal.intValue? text.toList = some n →
      Spells (.int n) [.word .intLit text]
  | float {text x} : Literal.floatValue? text.toList = some x →
      Spells (.float x) [.word .floatLit text]
  | string {text body} : text.toList = '"' :: (body ++ ['"']) →
      Spells (.string (Literal.unescape body)) [.word .stringLit text]
  | objectSelf : Spells .objectSelf [Keyword.kwObjectSelf.token]
  | objectInvalid : Spells .objectInvalid [Keyword.kwObjectInvalid.token]
  | vector {xs tss} : xs.length ≤ 3 →
      List.Forall₂ SpellsComponent xs tss →
      Spells (.vector (xs.getD 0 .zero) (xs.getD 1 .zero) (xs.getD 2 .zero))
        (Symbol.leftBracket.token :: (commaSeparated tss ++ [Symbol.rightBracket.token]))

/-! ## Expressions -/

/-- The levels of the binary operators between those of choices and of operands. -/
def BinOp.level : BinOp → Nat
  | .logOr => 2
  | .logAnd => 3
  | .bitOr => 4
  | .bitXor => 5
  | .bitAnd => 6
  | .eq | .ne => 7
  | .lt | .gt | .le | .ge => 8
  | .shl | .shr | .ushr => 9
  | .add | .sub => 10
  | .mul | .div | .mod => 11

/-- The symbol of an assignment; not every operator can be joined to one. -/
def assignSymbol? : Option BinOp → Option Symbol
  | none => some .eq
  | some .add => some .plusEq
  | some .sub => some .minusEq
  | some .mul => some .starEq
  | some .div => some .slashEq
  | some .mod => some .percentEq
  | some .bitAnd => some .ampEq
  | some .bitOr => some .pipeEq
  | some .bitXor => some .caretEq
  | some .shl => some .shlEq
  | some .shr => some .shrEq
  | some .ushr => some .ushrEq
  | some .logAnd | some .logOr | some .eq | some .ne | some .lt | some .gt | some .le | some .ge => none

def Step.symbol : Step → Symbol
  | .increment => .plusPlus
  | .decrement => .minusMinus

namespace Expr

/-- How tightly an expression holds together: assignments least, then choices, the binary operators,
the operators in front of an operand, those behind it, and leaves. -/
def level : Expr → Nat
  | .assign _ _ _ _ => 0
  | .conditional _ _ _ _ => 1
  | .binary _ op _ _ => op.level
  | .unary _ _ _ | .step _ _ .stepFirst _ => 12
  | .step _ _ .valueFirst _ | .field _ _ _ => 13
  | .literal _ _ | .ident _ _ | .call _ _ _ => 14

/-- Tokens of an expression of a level where one of at least the level `least` is needed. -/
def bracket (least level : Nat) (ts : List Token) : List Token :=
  if level < least then inParens ts else ts

mutual

def print (spell : NodeId → List Token) : Expr → List Token
  | .literal node _ => spell node.id
  | .ident _ name => [nameToken name]
  | .binary _ op lhs rhs =>
    bracket op.level lhs.level (lhs.print spell) ++
      op.symbol.token :: bracket (op.level + 1) rhs.level (rhs.print spell)
  | .unary _ op operand => op.symbol.token :: bracket 12 operand.level (operand.print spell)
  | .step _ s .stepFirst target => s.symbol.token :: bracket 12 target.level (target.print spell)
  | .step _ s .valueFirst target => bracket 13 target.level (target.print spell) ++ [s.symbol.token]
  | .call _ name args => nameToken name :: inParens (commaSeparated (printAll spell args))
  | .assign _ op target value =>
    bracket 1 target.level (target.print spell) ++
      ((assignSymbol? op).getD .eq).token :: bracket 0 value.level (value.print spell)
  | .field _ base name =>
    bracket 13 base.level (base.print spell) ++ [Symbol.dot.token, nameToken name]
  | .conditional _ cond yes no =>
    bracket 2 cond.level (cond.print spell) ++
      Symbol.question.token :: (bracket 0 yes.level (yes.print spell) ++
        Symbol.colon.token :: bracket 1 no.level (no.print spell))

def printAll (spell : NodeId → List Token) : List Expr → List (List Token)
  | [] => []
  | e :: es => e.print spell :: printAll spell es

end

/-- The tokens of an expression where one of at least the level `least` is needed. -/
def printAt (spell : NodeId → List Token) (least : Nat) (e : Expr) : List Token :=
  bracket least e.level (e.print spell)

theorem printAt_zero (spell : NodeId → List Token) (e : Expr) : e.printAt spell 0 = e.print spell := by
  simp [printAt, bracket]

theorem printAll_eq_map (spell : NodeId → List Token) (es : List Expr) :
    printAll spell es = es.map (print spell) := by
  induction es with
  | nil => rfl
  | cons e es ih => rw [printAll, ih, map_cons]

/-- The root of an expression can be written: a literal has a spelling, and an operator joined to an
assignment has a symbol. -/
def RootWritable (spell : NodeId → List Token) : Expr → Prop
  | .literal node value => Spells value (spell node.id)
  | .assign _ op _ _ => (assignSymbol? op).isSome = true
  | _ => True

def Writable (spell : NodeId → List Token) (e : Expr) : Prop := ∀ p ∈ e.parts, p.RootWritable spell

theorem Writable.root {spell : NodeId → List Token} {e : Expr} (h : e.Writable spell) :
    e.RootWritable spell := h e e.self_mem_parts

theorem Writable.child {spell : NodeId → List Token} {e c : Expr} (h : e.Writable spell)
    (hc : c ∈ e.children) : c.Writable spell :=
  fun p hp => h p (mem_parts_iff.mpr (.inr ⟨c, hc, hp⟩))

end Expr

/-! ## Declarations -/

namespace TypeSpec

def print : TypeSpec → List Token
  | .void => [Keyword.kwVoid.token]
  | .int => [Keyword.kwInt.token]
  | .float => [Keyword.kwFloat.token]
  | .string => [Keyword.kwString.token]
  | .object => [Keyword.kwObject.token]
  | .vector => [Keyword.kwVector.token]
  | .action => [Keyword.kwAction.token]
  | .struct name => [Keyword.kwStruct.token, nameToken name]
  | .engine name => [nameToken name]

def Known (types : List String) : TypeSpec → Prop
  | .engine name => name ∈ types
  | _ => True

end TypeSpec

def printOptional (spell : NodeId → List Token) : Option Expr → List Token
  | none => []
  | some e => e.print spell

/-- The tokens of an optional expression of at least a level behind an equals sign. -/
def printInit (spell : NodeId → List Token) (least : Nat) : Option Expr → List Token
  | none => []
  | some e => Symbol.eq.token :: e.printAt spell least

def Declarator.print (spell : NodeId → List Token) (d : Declarator) : List Token :=
  nameToken d.name :: printInit spell 0 d.init

namespace VarDecl

def print (spell : NodeId → List Token) (d : VarDecl) : List Token :=
  (if d.isConst then [Keyword.kwConst.token] else []) ++
    (d.type.print ++
      (commaSeparated (d.vars.map (Declarator.print spell)) ++ [Symbol.semicolon.token]))

/-- A declaration that can be written: it has a name, a known type and initializers that can be
written. -/
structure Writable (types : List String) (spell : NodeId → List Token) (d : VarDecl) : Prop where
  type : d.type.Known types
  vars : d.vars ≠ []
  init : ∀ v ∈ d.vars, ∀ e ∈ v.init, e.Writable spell

end VarDecl

/-! ## Statements -/

namespace Stmt

mutual

def print (spell : NodeId → List Token) : Stmt → List Token
  | .block _ body => inBraces (printAll spell body)
  | .var _ decl => decl.print spell
  | .expr _ e => e.print spell ++ [Symbol.semicolon.token]
  | .ifThen _ cond yes => Keyword.kwIf.token :: (inParens (cond.print spell) ++ yes.print spell)
  | .ifElse _ cond yes no =>
    Keyword.kwIf.token :: (inParens (cond.print spell) ++
      (yes.print spell ++ Keyword.kwElse.token :: no.print spell))
  | .whileLoop _ cond body => Keyword.kwWhile.token :: (inParens (cond.print spell) ++ body.print spell)
  | .doWhile _ body cond =>
    Keyword.kwDo.token :: (body.print spell ++
      Keyword.kwWhile.token :: (inParens (cond.print spell) ++ [Symbol.semicolon.token]))
  | .forLoop _ init cond next body =>
    Keyword.kwFor.token :: (inParens (printOptional spell init ++ Symbol.semicolon.token ::
      (printOptional spell cond ++ Symbol.semicolon.token :: printOptional spell next)) ++
        body.print spell)
  | .switch _ value body =>
    Keyword.kwSwitch.token :: (inParens (value.print spell) ++ inBraces (printAll spell body))
  | .caseLabel _ label => Keyword.kwCase.token :: (label.printAt spell 1 ++ [Symbol.colon.token])
  | .defaultLabel _ => [Keyword.kwDefault.token, Symbol.colon.token]
  | .ret _ value => Keyword.kwReturn.token :: (printOptional spell value ++ [Symbol.semicolon.token])
  | .breakOut _ => [Keyword.kwBreak.token, Symbol.semicolon.token]
  | .continueLoop _ => [Keyword.kwContinue.token, Symbol.semicolon.token]
  | .empty _ => [Symbol.semicolon.token]

def printAll (spell : NodeId → List Token) : List Stmt → List Token
  | [] => []
  | s :: ss => s.print spell ++ printAll spell ss

end

/-- The statement ends in one that an else behind it would belong to. -/
def endsOpen : Stmt → Bool
  | .ifThen _ _ _ => true
  | .ifElse _ _ _ no => no.endsOpen
  | .whileLoop _ _ body | .forLoop _ _ _ _ body => body.endsOpen
  | _ => false

mutual

/-- A statement that can be written: its expressions can be, its declarations are not constant, and no
else stands behind a statement that would take it. -/
def Writable (types : List String) (spell : NodeId → List Token) : Stmt → Prop
  | .block _ body => WritableAll types spell body
  | .var _ decl => decl.isConst = false ∧ decl.Writable types spell
  | .expr _ e => e.Writable spell
  | .ifThen _ cond yes => cond.Writable spell ∧ yes.Writable types spell
  | .ifElse _ cond yes no =>
    cond.Writable spell ∧ yes.Writable types spell ∧ yes.endsOpen = false ∧ no.Writable types spell
  | .whileLoop _ cond body => cond.Writable spell ∧ body.Writable types spell
  | .doWhile _ body cond => body.Writable types spell ∧ cond.Writable spell
  | .forLoop _ init cond next body =>
    (∀ e ∈ init, e.Writable spell) ∧ (∀ e ∈ cond, e.Writable spell) ∧
      (∀ e ∈ next, e.Writable spell) ∧ body.Writable types spell
  | .switch _ value body => value.Writable spell ∧ WritableAll types spell body
  | .caseLabel _ label => label.Writable spell
  | .ret _ value => ∀ e ∈ value, e.Writable spell
  | .defaultLabel _ | .breakOut _ | .continueLoop _ | .empty _ => True

def WritableAll (types : List String) (spell : NodeId → List Token) : List Stmt → Prop
  | [] => True
  | s :: ss => s.Writable types spell ∧ WritableAll types spell ss

end

theorem writableAll_iff {types : List String} {spell : NodeId → List Token} {ss : List Stmt} :
    WritableAll types spell ss ↔ ∀ s ∈ ss, s.Writable types spell := by
  induction ss with
  | nil => simp [WritableAll]
  | cons s ss ih => rw [WritableAll, ih, forall_mem_cons]

end Stmt

/-! ## Items -/

def Param.print (spell : NodeId → List Token) (p : Param) : List Token :=
  p.type.print ++ nameToken p.name :: printInit spell 1 p.default

namespace FunctionDecl

def print (spell : NodeId → List Token) (d : FunctionDecl) : List Token :=
  d.ret.print ++ nameToken d.name :: inParens (commaSeparated (d.params.map (Param.print spell)))

/-- A head that can be written: its types are known, and the parameters with a default come last. -/
structure Writable (types : List String) (spell : NodeId → List Token) (d : FunctionDecl) : Prop where
  ret : d.ret.Known types
  params : ∀ p ∈ d.params, p.type.Known types ∧ ∀ e ∈ p.default, e.Writable spell
  trailing : ∃ front back, d.params = front ++ back ∧ (∀ p ∈ front, p.default = none) ∧
    ∀ p ∈ back, p.default.isSome

end FunctionDecl

def FieldDecl.print (d : FieldDecl) : List Token :=
  d.type.print ++ [nameToken d.name, Symbol.semicolon.token]

def StructDecl.print (d : StructDecl) : List Token :=
  Keyword.kwStruct.token :: nameToken d.name ::
    (inBraces (d.fields.flatMap FieldDecl.print) ++ [Symbol.semicolon.token])

def definitionText (name value : String) : String := if value = "" then name else name ++ " " ++ value

namespace Item

def print (spell : NodeId → List Token) : Item → List Token
  | .includeLine _ name => [.word .includeLine name]
  | .defineLine _ name value => [.word .defineLine (definitionText name value)]
  | .struct decl => decl.print
  | .prototype decl => decl.print spell ++ [Symbol.semicolon.token]
  | .function decl body => decl.print spell ++ inBraces (Stmt.printAll spell body)
  | .global decl => decl.print spell

def Writable (types : List String) (spell : NodeId → List Token) : Item → Prop
  | .includeLine _ name => normalizeName name = name
  | .defineLine _ name value =>
    (∀ c ∈ name.toList, Text.isBlank c = false) ∧ Text.trim value.toList = value.toList
  | .struct decl => ∀ f ∈ decl.fields, f.type.Known types
  | .prototype decl => decl.Writable types spell
  | .function decl body => decl.Writable types spell ∧ Stmt.WritableAll types spell body
  | .global decl => decl.Writable types spell

def typesBehind (types : List String) : Item → List String
  | .defineLine _ name value =>
    if engineStructureLead.toList <+: name.toList ∧ value ≠ "" then value :: types else types
  | _ => types

end Item

namespace Program

def print (spell : NodeId → List Token) (p : Program) : List Token := p.flatMap (Item.print spell)

/-- A program whose items can be written, each where the engine types are those before it. -/
def Writable (spell : NodeId → List Token) (types : List String) : Program → Prop
  | [] => True
  | item :: p => item.Writable types spell ∧ Writable spell (item.typesBehind types) p

end Program

end Nwscript
