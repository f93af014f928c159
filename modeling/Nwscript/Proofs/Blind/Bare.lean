import Nwscript.Check.Program
import Nwscript.Proofs.Tree

/-! # Programs without places

`bare` takes the places off: a token keeps its kind and its text, a node its number, a problem what
is wrong. Two things are equal up to places when they are equal without them. -/

namespace Nwscript

/-! ## Tokens -/

def Token.bare (t : Token) : Token := { t with span := {}, pos := {} }

@[simp] theorem Token.bare_kind (t : Token) : t.bare.kind = t.kind := rfl

@[simp] theorem Token.bare_text (t : Token) : t.bare.text = t.text := rfl

theorem Token.bare_eq_bare_iff (t u : Token) : t.bare = u.bare ↔ t.kind = u.kind ∧ t.text = u.text := by
  cases t
  cases u
  simp [Token.bare]

theorem map_bare_eq_map_bare_iff (ts us : List Token) : ts.map Token.bare = us.map Token.bare ↔
      List.Forall₂ (fun t u => t.kind = u.kind ∧ t.text = u.text) ts us := by
  rw [← List.forall₂_eq_eq_eq, List.forall₂_map_left_iff, List.forall₂_map_right_iff]
  simp only [Token.bare_eq_bare_iff]

/-! ## Trees -/

def Node.bare (n : Node) : Node := { n with pos := {} }

namespace Expr

mutual

def bare : Expr → Expr
  | .literal node value => .literal node.bare value
  | .ident node name => .ident node.bare name
  | .binary node op lhs rhs => .binary node.bare op lhs.bare rhs.bare
  | .unary node op operand => .unary node.bare op operand.bare
  | .step node s order target => .step node.bare s order target.bare
  | .call node name args => .call node.bare name (bareAll args)
  | .assign node op target value => .assign node.bare op target.bare value.bare
  | .field node base name => .field node.bare base.bare name
  | .conditional node cond yes no => .conditional node.bare cond.bare yes.bare no.bare

def bareAll : List Expr → List Expr
  | [] => []
  | e :: es => e.bare :: bareAll es

end

@[simp] theorem bareAll_eq_map (es : List Expr) : bareAll es = es.map bare := by
  induction es with
  | nil => rfl
  | cons e es ih => rw [bareAll, ih, List.map_cons]

end Expr

def Declarator.bare (d : Declarator) : Declarator :=
  { node := d.node.bare, name := d.name, init := d.init.map Expr.bare }

def VarDecl.bare (d : VarDecl) : VarDecl := { d with pos := {}, vars := d.vars.map Declarator.bare }

namespace Stmt

mutual

def bare : Stmt → Stmt
  | .block _ body => .block {} (bareAll body)
  | .var _ decl => .var {} decl.bare
  | .expr _ e => .expr {} e.bare
  | .ifThen _ cond yes => .ifThen {} cond.bare yes.bare
  | .ifElse _ cond yes no => .ifElse {} cond.bare yes.bare no.bare
  | .whileLoop _ cond body => .whileLoop {} cond.bare body.bare
  | .doWhile _ body cond => .doWhile {} body.bare cond.bare
  | .forLoop _ init cond next body =>
    .forLoop {} (init.map Expr.bare) (cond.map Expr.bare) (next.map Expr.bare) body.bare
  | .switch _ value body => .switch {} value.bare (bareAll body)
  | .caseLabel _ label => .caseLabel {} label.bare
  | .defaultLabel _ => .defaultLabel {}
  | .ret _ value => .ret {} (value.map Expr.bare)
  | .breakOut _ => .breakOut {}
  | .continueLoop _ => .continueLoop {}
  | .empty _ => .empty {}

def bareAll : List Stmt → List Stmt
  | [] => []
  | s :: ss => s.bare :: bareAll ss

end

@[simp] theorem bareAll_eq_map (ss : List Stmt) : bareAll ss = ss.map bare := by
  induction ss with
  | nil => rfl
  | cons s ss ih => rw [bareAll, ih, List.map_cons]

end Stmt

def FieldDecl.bare (d : FieldDecl) : FieldDecl := { d with pos := {} }

def StructDecl.bare (d : StructDecl) : StructDecl :=
  { d with pos := {}, fields := d.fields.map FieldDecl.bare }

def Param.bare (p : Param) : Param :=
  { p with node := p.node.bare, default := p.default.map Expr.bare }

def FunctionDecl.bare (d : FunctionDecl) : FunctionDecl :=
  { d with pos := {}, params := d.params.map Param.bare }

def Item.bare : Item → Item
  | .includeLine _ name => .includeLine {} name
  | .defineLine _ name value => .defineLine {} name value
  | .struct decl => .struct decl.bare
  | .prototype decl => .prototype decl.bare
  | .function decl body => .function decl.bare (body.map Stmt.bare)
  | .global decl => .global decl.bare

def Program.bare (program : Program) : Program := program.map Item.bare

/-! ## What is read -/

def SyntaxError.bare (e : SyntaxError) : SyntaxError := { e with pos := {} }

def PrototypeEntry.bare (e : PrototypeEntry) : PrototypeEntry :=
  { e with prototypes := e.prototypes.map fun _ => {}, definition := e.definition.map fun _ => {} }

def Parsed.bare (p : Parsed) : Parsed :=
  { program := p.program.bare
    prototypes := p.prototypes.map PrototypeEntry.bare
    nodeCount := p.nodeCount
    errors := p.errors.map SyntaxError.bare }

/-! ## What is found out -/

def VarInfo.bare (v : VarInfo) : VarInfo := { v with pos := {} }

def FuncInfo.bare (f : FuncInfo) : FuncInfo := { f with pos := {} }

def Finding.bare (f : Finding) : Finding := { f with pos := {} }

def Analysis.bare (a : Analysis) : Analysis :=
  { a with vars := a.vars.map VarInfo.bare, functions := a.functions.map FuncInfo.bare }

def Checked.bare (c : Checked) : Checked :=
  { c with analysis := c.analysis.bare, findings := c.findings.map Finding.bare }

end Nwscript
