import Mathlib
import Nwscript.Syntax.Basic

/-! # Parts of a program

The expressions of a tree, the numbers of its nodes, and induction over expressions and statements
with the hypothesis for every member of a list. -/

open List

namespace Nwscript

/-! ## Expressions -/

namespace Expr

mutual

def parts : Expr → List Expr
  | .literal node value => [.literal node value]
  | .ident node name => [.ident node name]
  | .binary node op lhs rhs => .binary node op lhs rhs :: (lhs.parts ++ rhs.parts)
  | .unary node op operand => .unary node op operand :: operand.parts
  | .step node s order target => .step node s order target :: target.parts
  | .call node name args => .call node name args :: partsOf args
  | .assign node op target value => .assign node op target value :: (target.parts ++ value.parts)
  | .field node base name => .field node base name :: base.parts
  | .conditional node cond yes no =>
    .conditional node cond yes no :: (cond.parts ++ (yes.parts ++ no.parts))

def partsOf : List Expr → List Expr
  | [] => []
  | e :: es => e.parts ++ partsOf es

end

@[simp] def children : Expr → List Expr
  | .literal _ _ | .ident _ _ => []
  | .binary _ _ lhs rhs => [lhs, rhs]
  | .unary _ _ operand => [operand]
  | .step _ _ _ target => [target]
  | .call _ _ args => args
  | .assign _ _ target value => [target, value]
  | .field _ base _ => [base]
  | .conditional _ cond yes no => [cond, yes, no]

def ids (e : Expr) : List NodeId := e.parts.map Expr.id

def idsOf (es : List Expr) : List NodeId := (partsOf es).map Expr.id

theorem partsOf_eq_flatMap (es : List Expr) : partsOf es = es.flatMap parts := by
  induction es with
  | nil => rfl
  | cons e es ih => rw [partsOf, ih, flatMap_cons]

theorem parts_eq_cons (e : Expr) : e.parts = e :: partsOf e.children := by
  cases e <;> simp [parts, children, partsOf]

theorem self_mem_parts (e : Expr) : e ∈ e.parts := by
  rw [parts_eq_cons]
  exact .head _

theorem mem_parts_iff {p e : Expr} : p ∈ e.parts ↔ p = e ∨ ∃ c ∈ e.children, p ∈ c.parts := by
  rw [parts_eq_cons, mem_cons, partsOf_eq_flatMap, mem_flatMap]

theorem id_mem_ids (e : Expr) : e.id ∈ e.ids := mem_map_of_mem e.self_mem_parts

@[simp] theorem idsOf_nil : idsOf [] = [] := rfl

@[simp] theorem idsOf_cons (e : Expr) (es : List Expr) : idsOf (e :: es) = e.ids ++ idsOf es := by
  rw [idsOf, partsOf, map_append]
  rfl

theorem ids_eq_cons (e : Expr) : e.ids = e.id :: idsOf e.children := by
  rw [ids, parts_eq_cons, map_cons, idsOf]

@[simp] theorem ids_literal (node : Node) (value : Value) :
    (Expr.literal node value).ids = [node.id] := rfl

@[simp] theorem ids_ident (node : Node) (name : String) : (Expr.ident node name).ids = [node.id] := rfl

@[simp] theorem ids_binary (node : Node) (op : BinOp) (lhs rhs : Expr) :
    (Expr.binary node op lhs rhs).ids = node.id :: (lhs.ids ++ rhs.ids) := by
  rw [ids, parts, map_cons, map_append]
  rfl

@[simp] theorem ids_unary (node : Node) (op : UnOp) (operand : Expr) :
    (Expr.unary node op operand).ids = node.id :: operand.ids := rfl

@[simp] theorem ids_step (node : Node) (s : Step) (order : StepOrder) (target : Expr) :
    (Expr.step node s order target).ids = node.id :: target.ids := rfl

@[simp] theorem ids_call (node : Node) (name : String) (args : List Expr) :
    (Expr.call node name args).ids = node.id :: idsOf args := rfl

@[simp] theorem ids_assign (node : Node) (op : Option BinOp) (target value : Expr) :
    (Expr.assign node op target value).ids = node.id :: (target.ids ++ value.ids) := by
  rw [ids, parts, map_cons, map_append]
  rfl

@[simp] theorem ids_field (node : Node) (base : Expr) (name : String) :
    (Expr.field node base name).ids = node.id :: base.ids := rfl

@[simp] theorem ids_conditional (node : Node) (cond yes no : Expr) :
    (Expr.conditional node cond yes no).ids = node.id :: (cond.ids ++ (yes.ids ++ no.ids)) := by
  rw [ids, parts, map_cons, map_append, map_append]
  rfl

theorem ids_subset_idsOf {e : Expr} {es : List Expr} (h : e ∈ es) : e.ids ⊆ idsOf es := by
  induction es with
  | nil => cases h
  | cons x es ih =>
    rw [idsOf_cons]
    rcases mem_cons.mp h with rfl | h
    · exact subset_append_left _ _
    · exact List.Subset.trans (ih h) (subset_append_right _ _)

@[elab_as_elim]
theorem inductionOn {P : Expr → Prop} (e : Expr) (literal : ∀ node value, P (.literal node value))
    (ident : ∀ node name, P (.ident node name))
    (binary : ∀ node op lhs rhs, P lhs → P rhs → P (.binary node op lhs rhs))
    (unary : ∀ node op operand, P operand → P (.unary node op operand))
    (step : ∀ node s order target, P target → P (.step node s order target))
    (call : ∀ node name args, (∀ e ∈ args, P e) → P (.call node name args))
    (assign : ∀ node op target value, P target → P value → P (.assign node op target value))
    (field : ∀ node base name, P base → P (.field node base name))
    (conditional : ∀ node cond yes no, P cond → P yes → P no → P (.conditional node cond yes no)) :
    P e := by
  refine @Expr.rec P (fun es => ∀ e ∈ es, P e) literal ident binary unary step call assign field
    conditional ?_ ?_ e
  · intro e he
    cases he
  · intro x es hx hes e he
    rcases mem_cons.mp he with rfl | he
    · exact hx
    · exact hes e he

theorem childInduction {P : Expr → Prop} (e : Expr)
    (h : ∀ e : Expr, (∀ c ∈ e.children, P c) → P e) : P e := by
  induction e using inductionOn with
  | literal node value => exact h _ (by simp [children])
  | ident node name => exact h _ (by simp [children])
  | binary node op lhs rhs hl hr => exact h _ (by simp [children, hl, hr])
  | unary node op operand ho => exact h _ (by simp [children, ho])
  | step node s order target ht => exact h _ (by simp [children, ht])
  | call node name args ih => exact h _ ih
  | assign node op target value ht hv => exact h _ (by simp [children, ht, hv])
  | field node base name hb => exact h _ (by simp [children, hb])
  | conditional node cond yes no hc hy hn => exact h _ (by simp [children, hc, hy, hn])

theorem mem_parts_trans {q p e : Expr} (hq : q ∈ p.parts) (hp : p ∈ e.parts) : q ∈ e.parts := by
  induction e using childInduction with
  | h e ih =>
    rcases mem_parts_iff.mp hp with rfl | ⟨child, hchild, hp⟩
    · exact hq
    · exact mem_parts_iff.mpr (.inr ⟨child, hchild, ih child hchild hp⟩)

end Expr

/-! ## Statements -/

def Declarator.ids (d : Declarator) : List NodeId := d.node.id :: d.init.toList.flatMap Expr.ids

def Param.ids (p : Param) : List NodeId := p.node.id :: p.default.toList.flatMap Expr.ids

namespace Stmt

mutual

def ids : Stmt → List NodeId
  | .block _ body => idsOf body
  | .var _ decl => decl.vars.flatMap Declarator.ids
  | .expr _ e => e.ids
  | .ifThen _ cond yes => cond.ids ++ yes.ids
  | .ifElse _ cond yes no => cond.ids ++ (yes.ids ++ no.ids)
  | .whileLoop _ cond body => cond.ids ++ body.ids
  | .doWhile _ body cond => body.ids ++ cond.ids
  | .forLoop _ init cond next body =>
    init.toList.flatMap Expr.ids ++ (cond.toList.flatMap Expr.ids ++
      (next.toList.flatMap Expr.ids ++ body.ids))
  | .switch _ value body => value.ids ++ idsOf body
  | .caseLabel _ label => label.ids
  | .ret _ value => value.toList.flatMap Expr.ids
  | .defaultLabel _ | .breakOut _ | .continueLoop _ | .empty _ => []

def idsOf : List Stmt → List NodeId
  | [] => []
  | s :: ss => s.ids ++ idsOf ss

end

mutual

def exprs : Stmt → List Expr
  | .block _ body => exprsOf body
  | .var _ decl => decl.vars.flatMap fun d => d.init.toList
  | .expr _ e => [e]
  | .ifThen _ cond yes => cond :: yes.exprs
  | .ifElse _ cond yes no => cond :: (yes.exprs ++ no.exprs)
  | .whileLoop _ cond body => cond :: body.exprs
  | .doWhile _ body cond => body.exprs ++ [cond]
  | .forLoop _ init cond next body => init.toList ++ (cond.toList ++ (next.toList ++ body.exprs))
  | .switch _ value body => value :: exprsOf body
  | .caseLabel _ label => [label]
  | .ret _ value => value.toList
  | .defaultLabel _ | .breakOut _ | .continueLoop _ | .empty _ => []

def exprsOf : List Stmt → List Expr
  | [] => []
  | s :: ss => s.exprs ++ exprsOf ss

end

theorem mem_exprsOf {body : List Stmt} {e : Expr} : e ∈ exprsOf body ↔ ∃ st ∈ body, e ∈ st.exprs := by
  induction body with
  | nil => simp [exprsOf]
  | cons st rest ih => simp [exprsOf, ih]

@[elab_as_elim]
theorem inductionOn {P : Stmt → Prop} (s : Stmt)
    (block : ∀ pos body, (∀ s ∈ body, P s) → P (.block pos body)) (var : ∀ pos decl, P (.var pos decl))
    (expr : ∀ pos e, P (.expr pos e)) (ifThen : ∀ pos cond yes, P yes → P (.ifThen pos cond yes))
    (ifElse : ∀ pos cond yes no, P yes → P no → P (.ifElse pos cond yes no))
    (whileLoop : ∀ pos cond body, P body → P (.whileLoop pos cond body))
    (doWhile : ∀ pos body cond, P body → P (.doWhile pos body cond))
    (forLoop : ∀ pos init cond next body, P body → P (.forLoop pos init cond next body))
    (switch : ∀ pos value body, (∀ s ∈ body, P s) → P (.switch pos value body))
    (caseLabel : ∀ pos label, P (.caseLabel pos label)) (defaultLabel : ∀ pos, P (.defaultLabel pos))
    (ret : ∀ pos value, P (.ret pos value)) (breakOut : ∀ pos, P (.breakOut pos))
    (continueLoop : ∀ pos, P (.continueLoop pos)) (empty : ∀ pos, P (.empty pos)) : P s := by
  refine @Stmt.rec P (fun ss => ∀ s ∈ ss, P s) block var expr ifThen ifElse whileLoop doWhile forLoop
    switch caseLabel defaultLabel ret breakOut continueLoop empty ?_ ?_ s
  · intro s hs
    cases hs
  · intro x ss hx hss s hs
    rcases mem_cons.mp hs with rfl | hs
    · exact hx
    · exact hss s hs

end Stmt

/-! ## Programs -/

def Item.ids : Item → List NodeId
  | .prototype decl => decl.params.flatMap Param.ids
  | .function decl body => decl.params.flatMap Param.ids ++ Stmt.idsOf body
  | .global decl => decl.vars.flatMap Declarator.ids
  | .includeLine _ _ | .defineLine _ _ _ | .struct _ => []

def Program.ids (p : Program) : List NodeId := p.flatMap Item.ids

/-- The expressions of an item, defaults of parameters apart, that are not parts of others. -/
def Item.exprs : Item → List Expr
  | .function _ body => Stmt.exprsOf body
  | .global decl => decl.vars.flatMap fun d => d.init.toList
  | .includeLine _ _ | .defineLine _ _ _ | .struct _ | .prototype _ => []

def Program.exprs (p : Program) : List Expr := p.flatMap fun item => item.exprs.flatMap Expr.parts

end Nwscript
