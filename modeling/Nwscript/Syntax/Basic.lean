import Nwscript.Syntax.Operator
import Nwscript.Value.Basic

/-! # Programs

The tree of a program. Expressions, declarators and parameters carry a number that no other of them
has, so that what is found out about them can be kept in tables beside the tree. -/

namespace Nwscript

/-- The number of a node of the tree. Numbers do not run out. -/
abbrev NodeId := Nat

structure Node where
  id : NodeId
  pos : Pos
  deriving DecidableEq, Repr, Inhabited

inductive TypeSpec where
  | void
  | int
  | float
  | string
  | object
  | vector
  | action
  | struct (name : String)
  | engine (name : String)
  deriving DecidableEq, Repr, Inhabited

inductive Step where
  | increment
  | decrement
  deriving DecidableEq, Repr

inductive StepOrder where
  | stepFirst
  | valueFirst
  deriving DecidableEq, Repr

inductive Expr where
  | literal (node : Node) (value : Value)
  | ident (node : Node) (name : String)
  | binary (node : Node) (op : BinOp) (lhs rhs : Expr)
  | unary (node : Node) (op : UnOp) (operand : Expr)
  | step (node : Node) (step : Step) (order : StepOrder) (target : Expr)
  | call (node : Node) (name : String) (args : List Expr)
  /-- An assignment, plain or with an operator. -/
  | assign (node : Node) (op : Option BinOp) (target value : Expr)
  | field (node : Node) (base : Expr) (name : String)
  | conditional (node : Node) (cond yes no : Expr)
  deriving Repr, Inhabited

namespace Expr

def node : Expr → Node
  | literal n _ | ident n _ | binary n _ _ _ | unary n _ _ | step n _ _ _ | call n _ _
  | assign n _ _ _ | field n _ _ | conditional n _ _ _ => n

def id (e : Expr) : NodeId := e.node.id

def pos (e : Expr) : Pos := e.node.pos

end Expr

structure Declarator where
  node : Node
  name : String
  init : Option Expr
  deriving Repr, Inhabited

structure VarDecl where
  pos : Pos
  isConst : Bool
  type : TypeSpec
  vars : List Declarator
  deriving Repr, Inhabited

inductive Stmt where
  | block (pos : Pos) (body : List Stmt)
  | var (pos : Pos) (decl : VarDecl)
  | expr (pos : Pos) (e : Expr)
  | ifThen (pos : Pos) (cond : Expr) (yes : Stmt)
  | ifElse (pos : Pos) (cond : Expr) (yes no : Stmt)
  | whileLoop (pos : Pos) (cond : Expr) (body : Stmt)
  | doWhile (pos : Pos) (body : Stmt) (cond : Expr)
  | forLoop (pos : Pos) (init cond next : Option Expr) (body : Stmt)
  | switch (pos : Pos) (value : Expr) (body : List Stmt)
  | caseLabel (pos : Pos) (label : Expr)
  | defaultLabel (pos : Pos)
  | ret (pos : Pos) (value : Option Expr)
  | breakOut (pos : Pos)
  | continueLoop (pos : Pos)
  | empty (pos : Pos)
  deriving Repr, Inhabited

def Stmt.pos : Stmt → Pos
  | block p _ | var p _ | expr p _ | ifThen p _ _ | ifElse p _ _ _ | whileLoop p _ _
  | doWhile p _ _ | forLoop p _ _ _ _ | switch p _ _ | caseLabel p _ | defaultLabel p | ret p _
  | breakOut p | continueLoop p | empty p => p

structure FieldDecl where
  type : TypeSpec
  name : String
  pos : Pos
  deriving Repr, Inhabited

structure StructDecl where
  pos : Pos
  name : String
  fields : List FieldDecl
  deriving Repr, Inhabited

structure Param where
  node : Node
  type : TypeSpec
  name : String
  default : Option Expr
  deriving Repr, Inhabited

structure FunctionDecl where
  pos : Pos
  ret : TypeSpec
  name : String
  params : List Param
  deriving Repr, Inhabited

inductive Item where
  | includeLine (pos : Pos) (name : String)
  /-- A definition; only engine scripts use them. -/
  | defineLine (pos : Pos) (name value : String)
  | struct (decl : StructDecl)
  | prototype (decl : FunctionDecl)
  | function (decl : FunctionDecl) (body : List Stmt)
  | global (decl : VarDecl)
  deriving Repr, Inhabited

abbrev Program := List Item

end Nwscript
