import Nwscript.Proofs.Blind.Bare

/-! # Programs at other places

`moved φ` takes what stands at a place `p` to `φ p` and leaves the rest as it is. To take the places
off is to move everything to the beginning. -/

open List

namespace Nwscript

/-- New places for tokens. What stands at the beginning stays there. -/
structure Relocation where
  pos : Pos → Pos
  span : Span → Span
  pos_start : pos {} = {}
  span_start : span {} = {}

attribute [simp] Relocation.pos_start Relocation.span_start

def Relocation.off : Relocation where
  pos _ := {}
  span _ := {}
  pos_start := rfl
  span_start := rfl

section Within

variable (P : Pos → Prop) [DecidablePred P]

/-- What stands where `P` does not hold goes to the beginning. -/
def Relocation.within : Relocation where
  pos p := if P p then p else {}
  span s := s
  pos_start := by by_cases h : P {} <;> simp [h]
  span_start := rfl

variable {P}

theorem Relocation.of_within_pos {p : Pos} (hstart : P {}) (h : (within P).pos p = p) : P p := by
  by_cases hp : P p
  · exact hp
  · simp only [within, if_neg hp] at h
    exact h ▸ hstart

end Within

/-! ## Trees -/

def Token.moved (ρ : Relocation) (t : Token) : Token :=
  { t with span := ρ.span t.span, pos := ρ.pos t.pos }

section Token

variable (ρ : Relocation) (t : Token)

@[simp] theorem Token.moved_kind : (t.moved ρ).kind = t.kind := rfl

@[simp] theorem Token.moved_text : (t.moved ρ).text = t.text := rfl

@[simp] theorem Token.moved_pos : (t.moved ρ).pos = ρ.pos t.pos := rfl

@[simp] theorem Token.moved_describe : (t.moved ρ).describe = t.describe := rfl

@[simp] theorem Token.moved_endToken : endToken.moved ρ = endToken := by
  simp [endToken, moved]

end Token

section Trees

variable (φ : Pos → Pos)

def Node.moved (n : Node) : Node := { n with pos := φ n.pos }

namespace Expr

mutual

def moved : Expr → Expr
  | .literal node value => .literal (node.moved φ) value
  | .ident node name => .ident (node.moved φ) name
  | .binary node op lhs rhs => .binary (node.moved φ) op lhs.moved rhs.moved
  | .unary node op operand => .unary (node.moved φ) op operand.moved
  | .step node s order target => .step (node.moved φ) s order target.moved
  | .call node name args => .call (node.moved φ) name (movedAll args)
  | .assign node op target value => .assign (node.moved φ) op target.moved value.moved
  | .field node base name => .field (node.moved φ) base.moved name
  | .conditional node cond yes no => .conditional (node.moved φ) cond.moved yes.moved no.moved

def movedAll : List Expr → List Expr
  | [] => []
  | e :: es => e.moved :: movedAll es

end

@[simp] theorem movedAll_eq_map (es : List Expr) : movedAll φ es = es.map (moved φ) := by
  induction es with
  | nil => rfl
  | cons e es ih => rw [movedAll, ih, map_cons]

@[simp] theorem moved_id (e : Expr) : (e.moved φ).id = e.id := by cases e <;> rfl

@[simp] theorem moved_pos (e : Expr) : (e.moved φ).pos = φ e.pos := by cases e <;> rfl

@[simp] theorem moved_isIdent (e : Expr) : (e.moved φ).isIdent = e.isIdent := by cases e <;> rfl

@[simp] theorem moved_isCall (e : Expr) : (e.moved φ).isCall = e.isCall := by cases e <;> rfl

theorem moved_root (e : Expr) : (e.moved φ).root = e.root.moved φ := by
  induction e using Expr.root.induct with
  | case1 node base name ih => exact ih
  | case2 e h => cases e <;> first | rfl | exact absurd rfl (h _ _ _)

end Expr

def Declarator.moved (d : Declarator) : Declarator :=
  { node := d.node.moved φ, name := d.name, init := d.init.map (Expr.moved φ) }

def VarDecl.moved (d : VarDecl) : VarDecl :=
  { d with pos := φ d.pos, vars := d.vars.map (Declarator.moved φ) }

namespace Stmt

mutual

def moved : Stmt → Stmt
  | .block pos body => .block (φ pos) (movedAll body)
  | .var pos decl => .var (φ pos) (decl.moved φ)
  | .expr pos e => .expr (φ pos) (e.moved φ)
  | .ifThen pos cond yes => .ifThen (φ pos) (cond.moved φ) yes.moved
  | .ifElse pos cond yes no => .ifElse (φ pos) (cond.moved φ) yes.moved no.moved
  | .whileLoop pos cond body => .whileLoop (φ pos) (cond.moved φ) body.moved
  | .doWhile pos body cond => .doWhile (φ pos) body.moved (cond.moved φ)
  | .forLoop pos init cond next body =>
    .forLoop (φ pos) (init.map (Expr.moved φ)) (cond.map (Expr.moved φ)) (next.map (Expr.moved φ))
      body.moved
  | .switch pos value body => .switch (φ pos) (value.moved φ) (movedAll body)
  | .caseLabel pos label => .caseLabel (φ pos) (label.moved φ)
  | .defaultLabel pos => .defaultLabel (φ pos)
  | .ret pos value => .ret (φ pos) (value.map (Expr.moved φ))
  | .breakOut pos => .breakOut (φ pos)
  | .continueLoop pos => .continueLoop (φ pos)
  | .empty pos => .empty (φ pos)

def movedAll : List Stmt → List Stmt
  | [] => []
  | s :: ss => s.moved :: movedAll ss

end

@[simp] theorem movedAll_eq_map (ss : List Stmt) : movedAll φ ss = ss.map (moved φ) := by
  induction ss with
  | nil => rfl
  | cons s ss ih => rw [movedAll, ih, map_cons]

@[simp] theorem moved_pos (s : Stmt) : (s.moved φ).pos = φ s.pos := by cases s <;> rfl

end Stmt

def FieldDecl.moved (d : FieldDecl) : FieldDecl := { d with pos := φ d.pos }

def StructDecl.moved (d : StructDecl) : StructDecl :=
  { d with pos := φ d.pos, fields := d.fields.map (FieldDecl.moved φ) }

def Param.moved (p : Param) : Param :=
  { p with node := p.node.moved φ, default := p.default.map (Expr.moved φ) }

def FunctionDecl.moved (d : FunctionDecl) : FunctionDecl :=
  { d with pos := φ d.pos, params := d.params.map (Param.moved φ) }

def Item.moved : Item → Item
  | .includeLine pos name => .includeLine (φ pos) name
  | .defineLine pos name value => .defineLine (φ pos) name value
  | .struct decl => .struct (decl.moved φ)
  | .prototype decl => .prototype (decl.moved φ)
  | .function decl body => .function (decl.moved φ) (body.map (Stmt.moved φ))
  | .global decl => .global (decl.moved φ)

def Program.moved (program : Program) : Program := program.map (Item.moved φ)

/-- Directives, which are only recorded. -/
inductive Item.IsInert : Item → Prop where
  | includeLine {pos name} : IsInert (.includeLine pos name)
  | defineLine {pos name value} : IsInert (.defineLine pos name value)

/-- A program at other places with more directives. The functions have the numbers that `ι` gives; the
first items have the numbers `m` and `n`. -/
inductive Relaid (ι : Nat → Nat) : Nat → Program → Nat → Program → Prop where
  | nil {m n} : Relaid ι m [] n []
  | item {m n p q} (item : Item) :
      (∀ decl body, item = .function decl body → ι m = n) → Relaid ι (m + 1) p (n + 1) q →
      Relaid ι m (item :: p) n (item.moved φ :: q)
  | inert {m n p q item} :
      item.IsInert → Relaid ι m p (n + 1) q → Relaid ι m p n (item :: q)

theorem Relaid.moved (n : Nat) (program : Program) : Relaid φ id n program n (program.moved φ) := by
  induction program generalizing n with
  | nil => exact .nil
  | cons item items ih => exact .item item (fun _ _ _ => rfl) (ih (n + 1))

/-! ## What is read and found -/

def SyntaxError.moved (e : SyntaxError) : SyntaxError := { e with pos := φ e.pos }

def PrototypeEntry.moved (e : PrototypeEntry) : PrototypeEntry :=
  { e with prototypes := e.prototypes.map φ, definition := e.definition.map φ }

def Parsed.moved (p : Parsed) : Parsed :=
  { program := p.program.moved φ
    prototypes := p.prototypes.map (PrototypeEntry.moved φ)
    nodeCount := p.nodeCount
    errors := p.errors.map (SyntaxError.moved φ) }

def VarInfo.moved (v : VarInfo) : VarInfo := { v with pos := φ v.pos }

def FuncInfo.moved (f : FuncInfo) : FuncInfo := { f with pos := φ f.pos }

def Finding.moved (f : Finding) : Finding := { f with pos := φ f.pos }

variable (ι : Nat → Nat)

/-- The tables of a program at other places, whose items have the numbers that `ι` gives. -/
def Analysis.moved (a : Analysis) : Analysis :=
  { a with
    vars := a.vars.map (VarInfo.moved φ)
    functions := a.functions.map (FuncInfo.moved φ)
    definitions := a.definitions.map (Prod.map id ι) }

def Checked.moved (c : Checked) : Checked :=
  { c with analysis := c.analysis.moved φ ι, findings := c.findings.map (Finding.moved φ) }

theorem Analysis.moved_vars (a : Analysis) (var : VarId) :
    (a.moved φ ι).vars[var]? = a.vars[var]?.map (VarInfo.moved φ) := by
  simp [moved]

theorem Analysis.moved_functions (a : Analysis) (func : FuncId) :
    (a.moved φ ι).functions[func]? = a.functions[func]?.map (FuncInfo.moved φ) := by
  simp [moved]

@[simp] theorem Analysis.moved_function? (a : Analysis) (name : String) :
    (a.moved φ ι).function? name = a.function? name := by
  simp only [function?, moved, Array.findIdx?_map]
  rfl

theorem Analysis.moved_definition? (a : Analysis) (func : FuncId) :
    (a.moved φ ι).definition? func = (a.definition? func).map ι := by
  simp only [definition?, moved]
  induction a.definitions with
  | nil => rfl
  | cons d ds ih =>
    simp only [map_cons, List.lookup, Prod.map_fst, id]
    split
    · rfl
    · exact ih

end Trees

/-! ## At the same places -/

section SamePlaces

theorem Expr.moved_same : Expr.moved (fun p => p) = fun e => e := by
  funext e
  induction e using Expr.inductionOn with
  | call node name args ih =>
    rw [moved, movedAll_eq_map, map_congr_left ih, map_id']
    rfl
  | _ => simp_all [moved, Node.moved]

theorem Declarator.moved_same : Declarator.moved (fun p => p) = id := by
  funext d
  simp [moved, Node.moved, Expr.moved_same]

theorem VarDecl.moved_same : VarDecl.moved (fun p => p) = id := by
  funext d
  simp [moved, Declarator.moved_same]

theorem Stmt.moved_same : Stmt.moved (fun p => p) = fun s => s := by
  funext s
  induction s using Stmt.inductionOn with
  | block pos body ih => rw [moved, movedAll_eq_map, map_congr_left ih, map_id']
  | switch pos value body ih =>
    rw [moved, movedAll_eq_map, map_congr_left ih, map_id', Expr.moved_same]
  | _ => simp_all [moved, Expr.moved_same, VarDecl.moved_same]

theorem Item.moved_same (item : Item) : item.moved (fun p => p) = item := by
  have hparam : Param.moved (fun p => p) = id := by
    funext p
    simp [Param.moved, Node.moved, Expr.moved_same]
  have hfield : FieldDecl.moved (fun p => p) = id := rfl
  cases item <;>
    simp [moved, StructDecl.moved, FunctionDecl.moved, hparam, hfield, Stmt.moved_same,
      VarDecl.moved_same]

theorem Checked.moved_same (c : Checked) (ι : Nat → Nat) : c.moved (fun p => p) ι =
    { c with analysis.definitions := c.analysis.definitions.map (Prod.map id ι) } := by
  have hfinding : Finding.moved (fun p => p) = id := rfl
  have hvar : VarInfo.moved (fun p => p) = id := rfl
  have hfunction : FuncInfo.moved (fun p => p) = id := rfl
  simp [moved, Analysis.moved, hfinding, hvar, hfunction]

end SamePlaces

/-! ## Without places -/

theorem Expr.bare_eq_moved : Expr.bare = Expr.moved fun _ => {} := by
  funext e
  induction e using Expr.inductionOn with
  | call node name args ih =>
    rw [bare, moved, bareAll_eq_map, movedAll_eq_map, map_congr_left ih]
    rfl
  | _ => simp_all [bare, moved, Node.bare, Node.moved]

theorem Declarator.bare_eq_moved : Declarator.bare = Declarator.moved fun _ => {} := by
  funext d
  rw [bare, Expr.bare_eq_moved]
  rfl

theorem VarDecl.bare_eq_moved : VarDecl.bare = VarDecl.moved fun _ => {} := by
  funext d
  rw [bare, Declarator.bare_eq_moved]
  rfl

theorem Stmt.bare_eq_moved : Stmt.bare = Stmt.moved fun _ => {} := by
  funext s
  induction s using Stmt.inductionOn with
  | block pos body ih => rw [bare, moved, bareAll_eq_map, movedAll_eq_map, map_congr_left ih]
  | switch pos value body ih =>
    rw [bare, moved, bareAll_eq_map, movedAll_eq_map, map_congr_left ih, Expr.bare_eq_moved]
  | _ => simp_all [bare, moved, Expr.bare_eq_moved, VarDecl.bare_eq_moved]

theorem Item.bare_eq_moved : Item.bare = Item.moved fun _ => {} := by
  have hparam : Param.bare = Param.moved fun _ => {} := by
    funext p
    rw [Param.bare, Expr.bare_eq_moved]
    rfl
  funext i
  cases i with
  | struct decl => rfl
  | _ =>
    simp [bare, moved, FunctionDecl.bare, FunctionDecl.moved, hparam, Stmt.bare_eq_moved,
      VarDecl.bare_eq_moved]

theorem Program.bare_eq_moved (p : Program) : p.bare = p.moved fun _ => {} := by
  rw [bare, Item.bare_eq_moved, moved]

theorem Analysis.bare_eq_moved (a : Analysis) : a.bare = a.moved (fun _ => {}) id := by
  simp only [moved, Prod.map_id, map_id]
  rfl

theorem Parsed.bare_eq_moved (p : Parsed) : p.bare = p.moved fun _ => {} := by
  rw [bare, Program.bare_eq_moved]
  rfl

end Nwscript
