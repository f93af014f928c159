import Nwscript.Proofs.Blind.Moved
import Nwscript.Proofs.Typing.Stmt

/-! # Checks do not look at places

A check of a program at other places writes the same tables and finds the same problems, at those
places. As for parsers, there is one rule for each way to join checks and one lemma for each check. Two
more facts go along: of the values that are recorded no string is too long, and a check does not look
at what was found before it. -/

open List Option

namespace Nwscript

variable {φ : Pos → Pos} {ι : Nat → Nat}

def Value.IsShort : Value → Prop
  | .string bytes => bytes.length ≤ maxStringLength
  | _ => True

namespace CheckState

def moved (φ : Pos → Pos) (ι : Nat → Nat) (s : CheckState) : CheckState :=
  { s with analysis := s.analysis.moved φ ι, findings := s.findings.map (Finding.moved φ) }

def after (s : CheckState) (found : List Finding) : CheckState :=
  { s with findings := s.findings ++ found }

def ShortValues (s : CheckState) : Prop := ∀ entry ∈ s.analysis.consts.entries, entry.2.IsShort

end CheckState

def SequenceState.moved (φ : Pos → Pos) (s : SequenceState) : SequenceState :=
  { s with skippable := s.skippable.map fun d => (d.1, φ d.2) }

/-! ## Reachable ends -/

namespace Stmt

theorem anyBreaks_map_moved {ss : List Stmt} (h : ∀ s ∈ ss, (s.moved φ).breaks = s.breaks) :
    anyBreaks (ss.map (moved φ)) = anyBreaks ss := by
  induction ss with
  | nil => rfl
  | cons s ss ih =>
    rw [forall_mem_cons] at h
    rw [map_cons, anyBreaks, anyBreaks, h.1, ih h.2]

@[simp] theorem moved_breaks (s : Stmt) : (s.moved φ).breaks = s.breaks := by
  induction s using Stmt.inductionOn with
  | block pos body ih => simpa [moved, breaks] using anyBreaks_map_moved ih
  | ifThen pos cond yes ihy => simpa [moved, breaks] using ihy
  | ifElse pos cond yes no ihy ihn => simp [moved, breaks, ihy, ihn]
  | _ => rfl

theorem anyContinues_map_moved {ss : List Stmt} (h : ∀ s ∈ ss, (s.moved φ).continues = s.continues) :
    anyContinues (ss.map (moved φ)) = anyContinues ss := by
  induction ss with
  | nil => rfl
  | cons s ss ih =>
    rw [forall_mem_cons] at h
    rw [map_cons, anyContinues, anyContinues, h.1, ih h.2]

@[simp] theorem moved_continues (s : Stmt) : (s.moved φ).continues = s.continues := by
  induction s using Stmt.inductionOn with
  | block pos body ih => simpa [moved, continues] using anyContinues_map_moved ih
  | switch pos value body ih => simpa [moved, continues] using anyContinues_map_moved ih
  | ifThen pos cond yes ihy => simpa [moved, continues] using ihy
  | ifElse pos cond yes no ihy ihn => simp [moved, continues, ihy, ihn]
  | _ => rfl

@[simp] theorem moved_isLabel (s : Stmt) : (s.moved φ).isLabel = s.isLabel := by cases s <;> rfl

@[simp] theorem moved_isDefault (s : Stmt) : (s.moved φ).isDefault = s.isDefault := by cases s <;> rfl

end Stmt

@[simp] theorem isAlwaysTrue_moved (consts : NodeTable Value) (cond : Expr) :
    isAlwaysTrue consts (cond.moved φ) = isAlwaysTrue consts cond := by
  rw [isAlwaysTrue, Expr.moved_id, isAlwaysTrue]

theorem blockFallsThrough_map {consts : NodeTable Value} {ss : List Stmt}
    (h : ∀ s ∈ ss, fallsThrough consts (s.moved φ) = fallsThrough consts s) (reachable : Bool) :
    blockFallsThrough consts reachable (ss.map (Stmt.moved φ)) = blockFallsThrough consts reachable ss := by
  induction ss generalizing reachable with
  | nil => rfl
  | cons s ss ih =>
    rw [forall_mem_cons] at h
    rw [map_cons, blockFallsThrough, blockFallsThrough, Stmt.moved_isLabel, h.1, ih h.2]

@[simp] theorem fallsThrough_moved (consts : NodeTable Value) (s : Stmt) :
    fallsThrough consts (s.moved φ) = fallsThrough consts s := by
  induction s using Stmt.inductionOn with
  | block pos body ih => simpa [Stmt.moved, fallsThrough] using blockFallsThrough_map ih true
  | ifElse pos cond yes no ihy ihn => simp [Stmt.moved, fallsThrough, ihy, ihn]
  | whileLoop pos cond body ihb => simp [Stmt.moved, fallsThrough]
  | doWhile pos body cond ihb => simp [Stmt.moved, fallsThrough, ihb]
  | forLoop pos init cond next body ihb =>
    cases cond <;> simp [Stmt.moved, fallsThrough, isAlwaysTrue?]
  | switch pos value body ih =>
    have hbreaks : anyBreaks (body.map (Stmt.moved φ)) = anyBreaks body :=
      Stmt.anyBreaks_map_moved fun s _ => s.moved_breaks
    have hdefault : (body.map (Stmt.moved φ)).any Stmt.isDefault = body.any Stmt.isDefault := by
      simp [List.any_map, Function.comp_def]
    rw [Stmt.moved, Stmt.movedAll_eq_map, fallsThrough, hbreaks, hdefault,
      blockFallsThrough_map ih true, fallsThrough]
  | _ => rfl

theorem blockFallsThrough_map_moved (consts : NodeTable Value) (reachable : Bool) (ss : List Stmt) :
    blockFallsThrough consts reachable (ss.map (Stmt.moved φ)) = blockFallsThrough consts reachable ss :=
  blockFallsThrough_map (fun s _ => fallsThrough_moved consts s) reachable

@[simp] theorem Stmt.moved_goesOn (consts : NodeTable Value) (s : Stmt) :
    (s.moved φ).goesOn consts = s.goesOn consts := by
  have h : fallsThrough consts (s.moved φ) = fallsThrough consts s := fallsThrough_moved consts s
  cases s <;> first | rfl | exact h

namespace Check

/-! ## Two runs of a check -/

/-- What `q` finds at the moved places is what `p` finds, moved by `f`. Besides, `p` records short
values only and does not look at earlier findings. -/
structure Blind {α : Type} (φ : Pos → Pos) (ι : Nat → Nat) (f : α → α) (p q : Check α) : Prop where
  same : ∀ s, q (s.moved φ ι) = (f (p s).1, (p s).2.moved φ ι)
  short : ∀ s, s.ShortValues → (p s).2.ShortValues
  framed : ∀ s found, p (s.after found) = ((p s).1, (p s).2.after found)

section Rules

variable {α β : Type} {f : α → α} {g : β → β} {p q : Check α} {k l : α → Check β}

theorem Blind.bind (hp : Blind φ ι f p q) (hk : ∀ a, Blind φ ι g (k a) (l (f a))) :
    Blind φ ι g (p >>= k) (q >>= l) := by
  refine ⟨fun s => ?_, fun s hs => (hk (p s).1).short _ (hp.short s hs), fun s found => ?_⟩
  · change l (q (s.moved φ ι)).1 (q (s.moved φ ι)).2 = _
    rw [hp.same s]
    exact (hk (p s).1).same (p s).2
  · change k (p (s.after found)).1 (p (s.after found)).2 = _
    rw [hp.framed s found]
    exact (hk (p s).1).framed (p s).2 found

theorem Blind.then (hp : Blind φ ι id p q) (hk : ∀ a, Blind φ ι g (k a) (l a)) :
    Blind φ ι g (p >>= k) (q >>= l) := hp.bind hk

theorem Blind.pure {a b : α} (h : b = f a) : Blind φ ι f (Pure.pure a) (Pure.pure b) :=
  ⟨fun _ => by rw [h]; rfl, fun _ hs => hs, fun _ _ => rfl⟩

theorem Blind.ite {c : Prop} {i j : Decidable c} {p' q' : Check α} (hp : Blind φ ι f p q)
    (hp' : Blind φ ι f p' q') : Blind φ ι f (@ite _ c i p p') (@ite _ c j q q') := by
  by_cases h : c
  · rw [if_pos h, if_pos h]
    exact hp
  · rw [if_neg h, if_neg h]
    exact hp'

theorem Blind.read {a b : CheckState → α} (h : ∀ s, b (s.moved φ ι) = f (a s))
    (hframed : ∀ s found, a (s.after found) = a s) :
    Blind φ ι f (do return a (← get)) (do return b (← get)) := by
  refine ⟨fun s => ?_, fun _ hs => hs, fun s found => ?_⟩
  · change (b (s.moved φ ι), s.moved φ ι) = _
    rw [h]
    rfl
  · change (a (s.after found), s.after found) = _
    rw [hframed]
    rfl

theorem Blind.modify {a b : CheckState → CheckState} (h : ∀ s, b (s.moved φ ι) = (a s).moved φ ι)
    (hshort : ∀ s, s.ShortValues → (a s).ShortValues)
    (hframed : ∀ s found, a (s.after found) = (a s).after found) :
    Blind φ ι id (modify a) (modify b) := by
  refine ⟨fun s => ?_, hshort, fun s found => ?_⟩
  · change ((), b (s.moved φ ι)) = _
    rw [h]
    rfl
  · change ((), a (s.after found)) = _
    rw [hframed]
    rfl

theorem Blind.get {k l : CheckState → Check α}
    (h : ∀ s, l (s.moved φ ι) (s.moved φ ι) = (f (k s s).1, (k s s).2.moved φ ι) ∧
      (s.ShortValues → (k s s).2.ShortValues) ∧
      ∀ found, k (s.after found) (s.after found) = ((k s s).1, (k s s).2.after found)) :
    Blind φ ι f (get >>= k) (get >>= l) :=
  ⟨fun s => (h s).1, fun s => (h s).2.1, fun s => (h s).2.2⟩

theorem Blind.forM {γ : Type} {h : γ → γ} {m n : γ → Check Unit} {xs : List γ}
    (hm : ∀ x ∈ xs, Blind φ ι id (m x) (n (h x))) : Blind φ ι id (xs.forM m) ((xs.map h).forM n) := by
  induction xs with
  | nil => exact .pure rfl
  | cons x xs ih =>
    rw [forall_mem_cons] at hm
    exact hm.1.then fun _ => ih hm.2

end Rules

/-! ## The state -/

theorem blind_analysis : Blind φ ι (Analysis.moved φ ι) analysis analysis :=
  .read (fun _ => rfl) fun _ _ => rfl

theorem blind_report (pos : Pos) (problem : Problem) :
    Blind φ ι id (report pos problem) (report (φ pos) problem) :=
  .modify (fun _ => rfl) (fun _ hs => hs) fun _ _ => rfl

theorem blind_stop : Blind φ ι id stop stop :=
  .modify (fun _ => rfl) (fun _ hs => hs) fun _ _ => rfl

theorem blind_fail {α : Type} (pos : Pos) (problem : Problem) :
    Blind φ ι id (fail pos problem : Check (Option α)) (fail (φ pos) problem) :=
  (blind_report pos problem).then fun _ => .pure rfl

theorem blind_record {m n : Analysis → Analysis} (h : ∀ a, n (a.moved φ ι) = (m a).moved φ ι)
    (hconsts : ∀ a, (m a).consts = a.consts) : Blind φ ι id (record m) (record n) := by
  refine .modify (fun s => congrArg (fun a => { s.moved φ ι with analysis := a }) (h s.analysis)) ?_
    fun _ _ => rfl
  intro s hs
  show ∀ entry ∈ (m s.analysis).consts.entries, entry.2.IsShort
  rw [hconsts]
  exact hs

theorem blind_record_value (id_ : NodeId) {value : Value} (h : value.IsShort) :
    Blind φ ι id (record fun a => { a with consts := a.consts.insert id_ value })
      (record fun a => { a with consts := a.consts.insert id_ value }) :=
  .modify (fun _ => rfl) (fun _ hs => forall_mem_cons.mpr ⟨h, hs⟩) fun _ _ => rfl

theorem Blind.record_then {α : Type} {f : α → α} {m n : Analysis → Analysis} {k l : Unit → Check α}
    (h : ∀ a, n (a.moved φ ι) = (m a).moved φ ι) (hconsts : ∀ a, (m a).consts = a.consts)
    (hk : Blind φ ι f (k ()) (l ())) : Blind φ ι f (record m >>= k) (record n >>= l) :=
  (blind_record h hconsts).then fun _ => hk

theorem blind_constOf (e : Expr) : Blind φ ι id (constOf e) (constOf (e.moved φ)) := by
  rw [constOf, constOf, Expr.moved_id]
  exact blind_analysis.bind fun _ => .pure rfl

theorem blind_newVar (info : VarInfo) : Blind φ ι id (newVar info) (newVar (info.moved φ)) := by
  refine blind_analysis.bind fun a => ?_
  refine .record_then (fun b => ?_) (fun _ => rfl) (.pure ?_)
  · simp [Analysis.moved]
  · simp [Analysis.moved]

theorem blind_recordDecl (node : NodeId) (var : VarId) :
    Blind φ ι id (recordDecl node var) (recordDecl node var) := blind_record (fun _ => rfl) fun _ => rfl

theorem blind_scopes (m : ScopeStack → ScopeStack) :
    Blind φ ι id (modify fun s => { s with scopes := m s.scopes })
      (modify fun s => { s with scopes := m s.scopes }) :=
  .modify (fun _ => rfl) (fun _ hs => hs) fun _ _ => rfl

theorem blind_inScope {p q : Check Unit} (hp : Blind φ ι id p q) : Blind φ ι id (inScope p) (inScope q) :=
  (blind_scopes _).then fun _ => hp.then fun _ => blind_scopes _

theorem blind_declareLocal (name : String) (var : VarId) (pos : Pos) (problem : Problem) :
    Blind φ ι id (declareLocal name var pos problem) (declareLocal name var (φ pos) problem) := by
  refine .get fun s => ?_
  simp only [show (s.moved φ ι).scopes = s.scopes from rfl,
    show ∀ found, (s.after found).scopes = s.scopes from fun _ => rfl]
  cases s.scopes.inner? name <;> exact ⟨rfl, id, fun _ => rfl⟩

theorem blind_declareGlobal (name : String) (var : VarId) (pos : Pos) :
    Blind φ ι id (declareGlobal name var pos) (declareGlobal name var (φ pos)) := by
  refine .get fun s => ?_
  simp only [show (s.moved φ ι).globals = s.globals from rfl,
    show ∀ found, (s.after found).globals = s.globals from fun _ => rfl]
  cases s.globals.lookup name <;> exact ⟨rfl, id, fun _ => rfl⟩

theorem blind_lookup (name : String) : Blind φ ι id (lookup name) (lookup name) :=
  .read (fun _ => rfl) fun _ _ => rfl

theorem blind_resolveType (engine : EngineTable) (pos : Pos) (spec : TypeSpec) :
    Blind φ ι id (resolveType engine pos spec) (resolveType engine (φ pos) spec) := by
  cases spec with
  | struct name =>
    refine blind_analysis.bind fun a => .ite ?_ ?_
    · exact .pure rfl
    · exact blind_fail _ _
  | engine name =>
    simp only [resolveType]
    split
    · exact .pure rfl
    · exact blind_fail _ _
  | _ => exact .pure rfl

/-! ## Expressions -/

theorem blind_fold (e : Expr) (value : Value) : Blind φ ι id (fold e value) (fold (e.moved φ) value) := by
  cases value with
  | string bytes =>
    simp only [fold, Expr.moved_id, Expr.moved_pos]
    split
    · exact blind_report _ _
    · next hlength => exact blind_record_value e.id (Nat.not_lt.mp hlength)
  | _ =>
    simp only [fold, Expr.moved_id]
    exact blind_record_value e.id trivial

theorem blind_dividesByZero (op : BinOp) (divisor : Expr) :
    Blind φ ι id (dividesByZero op divisor) (dividesByZero op (divisor.moved φ)) := by
  simp only [dividesByZero, Expr.moved_pos]
  refine .ite (.pure rfl) ?_
  refine (blind_constOf divisor).then fun value => ?_
  split
  · refine .ite ?_ (.pure rfl)
    exact (blind_report _ _).then fun _ => .pure rfl
  · exact .pure rfl

theorem blind_foldOperands (e : Expr) (op : BinOp) (lhs rhs : Expr) :
    Blind φ ι id (foldOperands e op lhs rhs) (foldOperands (e.moved φ) op (lhs.moved φ) (rhs.moved φ)) := by
  refine (blind_constOf lhs).then fun a => ?_
  refine (blind_constOf rhs).then fun b => ?_
  split
  · split
    · exact blind_fold e _
    · exact .pure rfl
  · exact .pure rfl

theorem blind_checkIdent (engine : EngineTable) (e : Expr) (name : String) :
    Blind φ ι id (checkIdent engine e name) (checkIdent engine (e.moved φ) name) := by
  refine (blind_lookup name).then fun var => ?_
  rw [Expr.moved_id, Expr.moved_pos]
  cases var with
  | some var =>
    refine .record_then (fun _ => rfl) (fun _ => rfl) (blind_analysis.bind fun a => ?_)
    rw [Analysis.moved_vars]
    cases a.vars[var]? with
    | none => exact .pure rfl
    | some info =>
      simp only [map_some, VarInfo.moved]
      split
      · exact (blind_fold e _).then fun _ => .pure rfl
      · exact .pure rfl
  | none =>
    dsimp only
    split
    · exact (blind_fold e _).then fun _ => .pure rfl
    · exact blind_fail _ _

theorem blind_checkBinary (e : Expr) (op : BinOp) (lhs rhs : Expr) (a b : Ty) :
    Blind φ ι id (checkBinary e op lhs rhs a b) (checkBinary (e.moved φ) op (lhs.moved φ) (rhs.moved φ) a b) := by
  simp only [checkBinary, Expr.moved_pos]
  split
  · exact blind_fail _ _
  · refine (blind_dividesByZero op rhs).then fun zero => .ite (.pure rfl) ?_
    exact (blind_foldOperands e op lhs rhs).then fun _ => .pure rfl

theorem blind_checkUnary (e : Expr) (op : UnOp) (operand : Expr) (type : Ty) :
    Blind φ ι id (checkUnary e op operand type) (checkUnary (e.moved φ) op (operand.moved φ) type) := by
  simp only [checkUnary, Expr.moved_pos]
  refine .ite (blind_fail _ _) ?_
  refine (blind_constOf operand).then fun value => ?_
  split
  · split
    · exact (blind_fold e _).then fun _ => .pure rfl
    · exact .pure rfl
  · exact .pure rfl

theorem blind_isWritable (root : Expr) : Blind φ ι id (isWritable root) (isWritable (root.moved φ)) := by
  refine blind_analysis.bind fun a => ?_
  rw [Expr.moved_id, show (a.moved φ ι).refs = a.refs from rfl]
  cases a.refs.get? root.id with
  | none => exact .pure rfl
  | some var =>
    dsimp only
    rw [Analysis.moved_vars]
    cases a.vars[var]? <;> exact .pure rfl

theorem blind_checkAssign (e : Expr) (op : Option BinOp) (value : Expr) (target actual : Ty) :
    Blind φ ι id (checkAssign e op value target actual)
      (checkAssign (e.moved φ) op (value.moved φ) target actual) := by
  simp only [checkAssign, Expr.moved_pos]
  cases op with
  | none => exact .ite (.pure rfl) (blind_fail _ _)
  | some op =>
    refine .ite ?_ (blind_fail _ _)
    exact (blind_dividesByZero op value).then fun _ => .pure rfl

theorem blind_checkStep (target : Expr) (type : Ty) :
    Blind φ ι id (checkStep target type) (checkStep (target.moved φ) type) := by
  simp only [checkStep, Expr.moved_pos, Expr.moved_isIdent]
  exact .ite (blind_fail _ _) (.ite (blind_fail _ _) (.pure rfl))

theorem blind_checkField (e base : Expr) (type : Ty) (name : String) :
    Blind φ ι id (checkField e base type name) (checkField (e.moved φ) (base.moved φ) type name) := by
  simp only [checkField, Expr.moved_pos]
  refine blind_analysis.bind fun a => ?_
  rw [show (a.moved φ ι).structs = a.structs from rfl]
  split
  · refine (blind_constOf base).then fun value => ?_
    split
    · split
      · exact (blind_fold e _).then fun _ => .pure rfl
      · exact blind_stop.then fun _ => .pure rfl
    · exact .pure rfl
  · split <;> exact blind_fail _ _

theorem blind_checkConditional (e cond yes no : Expr) (condType yesType noType : Ty) :
    Blind φ ι id (checkConditional e cond yes no condType yesType noType)
      (checkConditional (e.moved φ) (cond.moved φ) (yes.moved φ) (no.moved φ) condType yesType noType) := by
  simp only [checkConditional, Expr.moved_pos]
  refine .ite (blind_fail _ _) (.ite (blind_fail _ _) ?_)
  refine (blind_constOf cond).then fun value => ?_
  split
  · rw [← apply_ite (Expr.moved φ)]
    refine (blind_constOf _).then fun chosen => ?_
    split
    · exact (blind_fold e _).then fun _ => .pure rfl
    · exact .pure rfl
  · exact .pure rfl

theorem blind_callTarget (engine : EngineTable) (e : Expr) (name : String) :
    Blind φ ι id (callTarget engine e name) (callTarget engine (e.moved φ) name) := by
  refine blind_analysis.bind fun a => ?_
  rw [Analysis.moved_function?, Expr.moved_pos]
  cases a.function? name with
  | some func =>
    dsimp only
    rw [Analysis.moved_functions]
    cases a.functions[func]? with
    | none => exact .pure rfl
    | some f =>
      refine .ite ?_ (.pure rfl)
      exact (blind_report _ _).then fun _ => .pure rfl
  | none =>
    dsimp only
    split
    · exact .pure rfl
    · exact blind_fail _ _

def movedArg (φ : Pos → Pos) (arg : Expr × Option Ty) : Expr × Option Ty := (arg.1.moved φ, arg.2)

theorem blind_checkArgTypes (name : String) (args : List (Expr × Option Ty))
    (params : List (Ty × Bool)) :
    Blind φ ι id (checkArgTypes name args params) (checkArgTypes name (args.map (movedArg φ)) params) := by
  induction args generalizing params with
  | nil => exact .pure rfl
  | cons arg args ih =>
    cases params with
    | nil => exact .pure rfl
    | cons param params =>
      have hrest := ih params
      simp only [map_cons, checkArgTypes, movedArg, Expr.moved_isCall, Expr.moved_pos]
      refine .ite ?_ ?_
      · exact .ite ((blind_report _ _).then fun _ => hrest) hrest
      · split
        · exact .ite ((blind_report _ _).then fun _ => hrest) hrest
        · exact hrest

theorem blind_checkCall (engine : EngineTable) (e : Expr) (name : String)
    (args : List (Expr × Option Ty)) :
    Blind φ ι id (checkCall engine e name args) (checkCall engine (e.moved φ) name (args.map (movedArg φ))) := by
  refine (blind_callTarget engine e name).then fun target => ?_
  split
  · exact .pure rfl
  · rename_i target
    have hrest : Blind φ ι id
        (do
          checkArgTypes name args target.params
          record fun a => { a with calls := a.calls.insert e.id target.callee }
          return some target.ret)
        (do
          checkArgTypes name (args.map (movedArg φ)) target.params
          record fun a => { a with calls := a.calls.insert e.id target.callee }
          return some target.ret) :=
      (blind_checkArgTypes name args _).then fun _ =>
        .record_then (fun _ => rfl) (fun _ => rfl) (.pure rfl)
    simp only [length_map, Expr.moved_id, Expr.moved_pos]
    exact .ite ((blind_report _ _).then fun _ => hrest) hrest

theorem blind_typed (e : Expr) {p q : Check (Option Ty)} (hp : Blind φ ι id p q) :
    Blind φ ι id (typed e p) (typed (e.moved φ) q) := by
  refine hp.then fun type => ?_
  rw [Expr.moved_id]
  split
  · exact .record_then (fun _ => rfl) (fun _ => rfl) (.pure rfl)
  · exact .pure rfl

theorem blind_checkTarget (target : Expr) {p q : Check (Option Ty)} (hp : Blind φ ι id p q) :
    Blind φ ι id (checkTarget target p) (checkTarget (target.moved φ) q) := by
  simp only [checkTarget, Expr.moved_pos, Expr.moved_root, Expr.moved_isIdent]
  refine .ite (blind_fail _ _) (hp.then fun type => ?_)
  split
  · exact .pure rfl
  · exact (blind_isWritable target.root).then fun _ => .ite (.pure rfl) (blind_fail _ _)

variable {engine : EngineTable}

theorem blind_checkExprs {es : List Expr}
    (h : ∀ e ∈ es, Blind φ ι id (checkExpr engine e) (checkExpr engine (e.moved φ))) :
    Blind φ ι id (checkExprs engine es) (checkExprs engine (es.map (Expr.moved φ))) := by
  induction es with
  | nil => exact .pure rfl
  | cons e es ih =>
    rw [forall_mem_cons] at h
    rw [map_cons, checkExprs, checkExprs]
    exact h.1.then fun _ => (ih h.2).then fun _ => .pure rfl

theorem blind_checkExpr (e : Expr) :
    Blind φ ι id (checkExpr engine e) (checkExpr engine (e.moved φ)) := by
  induction e using Expr.inductionOn with rw [Expr.moved, checkExpr, checkExpr]
  | literal node value =>
    exact blind_typed (.literal node value) ((blind_fold _ value).then fun _ => .pure rfl)
  | ident node name =>
    exact blind_typed (.ident node name) (blind_checkIdent engine _ name)
  | binary node op lhs rhs ihl ihr =>
    refine blind_typed (.binary node op lhs rhs) (ihl.then fun a => ihr.then fun b => ?_)
    split
    · exact blind_checkBinary (.binary node op lhs rhs) op lhs rhs _ _
    · exact .pure rfl
  | unary node op operand ih =>
    refine blind_typed (.unary node op operand) (ih.then fun type => ?_)
    split
    · exact blind_checkUnary (.unary node op operand) op operand _
    · exact .pure rfl
  | step node s order target ih =>
    refine blind_typed (.step node s order target) ((blind_checkTarget target ih).then fun type => ?_)
    split
    · exact blind_checkStep target _
    · exact .pure rfl
  | call node name args ih =>
    refine blind_typed (.call node name args) ?_
    rw [Expr.movedAll_eq_map]
    refine (blind_checkExprs ih).then fun types => ?_
    have h : Blind φ ι id _ _ := blind_checkCall engine (.call node name args) name (args.zip types)
    rw [Expr.moved, Expr.movedAll_eq_map] at h
    rw [zip_map_left]
    exact h
  | assign node op target value iht ihv =>
    refine blind_typed (.assign node op target value) ((blind_checkTarget target iht).then fun a => ihv.then fun b => ?_)
    split
    · exact blind_checkAssign (.assign node op target value) op value _ _
    · exact .pure rfl
  | field node base name ih =>
    refine blind_typed (.field node base name) (ih.then fun type => ?_)
    split
    · exact blind_checkField (.field node base name) base _ name
    · exact .pure rfl
  | conditional node cond yes no ihc ihy ihn =>
    refine blind_typed (.conditional node cond yes no) (ihc.then fun a => ihy.then fun b => ihn.then fun c => ?_)
    split
    · exact blind_checkConditional (.conditional node cond yes no) cond yes no _ _ _
    · exact .pure rfl

/-! ## Statements -/

theorem blind_variableType (decl : VarDecl) :
    Blind φ ι id (variableType engine decl) (variableType engine (decl.moved φ)) := by
  refine (blind_resolveType engine decl.pos decl.type).then fun type => ?_
  split
  · exact .ite (.pure rfl) (blind_fail _ _)
  · exact .pure rfl

theorem blind_initialValue (isConst : Bool) (name : String) (init : Expr) (actual : Option Ty) :
    Blind φ ι id (initialValue isConst name init actual)
      (initialValue isConst name (init.moved φ) actual) := by
  simp only [initialValue, Expr.moved_pos]
  refine .ite ((blind_constOf init).then fun value => ?_) (.pure rfl)
  split
  · exact .pure rfl
  · exact .ite ((blind_report _ _).then fun _ => .pure rfl) (.pure rfl)

theorem blind_checkInitializer (isConst : Bool) (type : Option Ty) (var : Declarator) :
    Blind φ ι id (checkInitializer engine isConst type var)
      (checkInitializer engine isConst type (var.moved φ)) := by
  obtain ⟨node, name, init⟩ := var
  cases init with
  | none => exact .ite ((blind_report _ _).then fun _ => .pure rfl) (.pure rfl)
  | some init =>
    have hvalue (actual : Option Ty) : Blind φ ι id _ _ := blind_initialValue isConst name init actual
    simp only [checkInitializer, Declarator.moved, map_some, Expr.moved_pos]
    refine (blind_checkExpr init).then fun actual => ?_
    split
    · exact .ite ((blind_report _ _).then fun _ => hvalue _) (hvalue _)
    · exact hvalue _

theorem blind_declare (kind : VarKind) (name : String) (var : VarId) (pos : Pos) :
    Blind φ ι id (declare kind name var pos) (declare kind name var (φ pos)) := by
  cases kind with
  | global => exact blind_declareGlobal name var pos
  | param => exact blind_declareLocal name var pos _
  | «local» => exact blind_declareLocal name var pos _

theorem blind_checkVarDecl (kind : VarKind) (decl : VarDecl) :
    Blind φ ι id (checkVarDecl engine kind decl) (checkVarDecl engine kind (decl.moved φ)) := by
  refine (blind_variableType decl).then fun type => .forM fun var _ => ?_
  refine (blind_checkInitializer decl.isConst type var).then fun value => ?_
  refine (blind_newVar _).then fun id => ?_
  exact (blind_recordDecl _ _).then fun _ => blind_declare kind var.name id _

theorem blind_checkOptional (e : Option Expr) :
    Blind φ ι id (checkOptional engine e) (checkOptional engine (e.map (Expr.moved φ))) := by
  cases e with
  | none => exact .pure rfl
  | some e => exact (blind_checkExpr e).then fun _ => .pure rfl

theorem blind_checkCondition (cond : Expr) :
    Blind φ ι id (checkCondition engine cond) (checkCondition engine (cond.moved φ)) := by
  refine (blind_checkExpr cond).then fun type => ?_
  rw [Expr.moved_pos]
  split
  · exact .ite (blind_report _ _) (.pure rfl)
  · exact .pure rfl

theorem blind_checkSwitchValue (value : Expr) :
    Blind φ ι id (checkSwitchValue engine value) (checkSwitchValue engine (value.moved φ)) := by
  refine (blind_checkExpr value).then fun type => ?_
  rw [Expr.moved_pos]
  split
  · exact .pure rfl
  · exact .pure rfl
  · exact blind_fail _ _
  · exact .pure rfl

theorem blind_checkCase (label : Expr) (labels : SwitchLabels) :
    Blind φ ι id (checkCase engine label labels) (checkCase engine (label.moved φ) labels) := by
  refine (blind_checkExpr label).then fun type => ?_
  rw [Expr.moved_pos]
  split
  · exact .pure rfl
  · refine (blind_constOf label).then fun value => ?_
    split
    · exact (blind_report _ _).then fun _ => .pure rfl
    · refine .ite ((blind_report _ _).then fun _ => .pure rfl) ?_
      exact .ite ((blind_report _ _).then fun _ => .pure rfl) (.pure rfl)

theorem blind_checkDefault (pos : Pos) (labels : SwitchLabels) :
    Blind φ ι id (checkDefault pos labels) (checkDefault (φ pos) labels) :=
  .ite ((blind_report _ _).then fun _ => .pure rfl) (.pure rfl)

theorem blind_reportSkipped (skippable : List (String × Pos)) :
    Blind φ ι id (reportSkipped skippable) (reportSkipped (skippable.map fun d => (d.1, φ d.2))) :=
  .forM fun _ _ => blind_report _ _

theorem blind_checkReturn (ret : Ty) (pos : Pos) (value : Option Expr) :
    Blind φ ι id (checkReturn engine ret pos value)
      (checkReturn engine ret (φ pos) (value.map (Expr.moved φ))) := by
  cases value with
  | none => exact .ite (.pure rfl) (blind_report _ _)
  | some value =>
    refine (blind_checkExpr value).then fun type => ?_
    rw [Expr.moved_pos]
    refine .ite (blind_report _ _) ?_
    split
    · exact .ite (blind_report _ _) (.pure rfl)
    · exact .pure rfl

theorem blind_warnUnreachable (state : SequenceState) (s : Stmt) :
    Blind φ ι id (warnUnreachable state s) (warnUnreachable (state.moved φ) (s.moved φ)) := by
  have hwarn (isEmpty : Bool) : Blind φ ι id
      (if !state.reachable && !state.reported && !isEmpty then do
        report s.pos .unreachable
        return true
      else return state.reported)
      (if !state.reachable && !state.reported && !isEmpty then do
        report (φ s.pos) .unreachable
        return true
      else return state.reported) :=
    .ite ((blind_report _ _).then fun _ => .pure rfl) (.pure rfl)
  cases s with
  | empty pos => exact hwarn true
  | _ => exact hwarn false

theorem skippableNames_moved (s : Stmt) :
    skippableNames (s.moved φ) = (skippableNames s).map fun d => (d.1, φ d.2) := by
  cases s with
  | var pos decl => simp [skippableNames, Stmt.moved, VarDecl.moved, Declarator.moved, Node.moved, Function.comp_def]
  | _ => rfl

/-- The statements go through both runs in step; only labels inside a switch are told apart. -/
theorem blind_checkStmts {body : List Stmt}
    (hbody : ∀ s ∈ body, ∀ ctx, Blind φ ι id (checkStmt engine ctx s) (checkStmt engine ctx (s.moved φ)))
    (ctx : BodyContext) (state : SequenceState) : Blind φ ι id (checkStmts engine ctx state body)
      (checkStmts engine ctx (state.moved φ) (body.map (Stmt.moved φ))) := by
  induction body generalizing state with
  | nil =>
    rw [map_nil, checkStmts, checkStmts]
    exact .pure rfl
  | cons s rest ih =>
    rw [forall_mem_cons] at hbody
    have hnext := ih hbody.2
    have hskipped : Blind φ ι id _ _ := blind_reportSkipped state.skippable
    have hlabels : (state.moved φ).labels = state.labels := rfl
    -- a statement that is no label of the switch is checked, and the sequence goes on behind it
    have hplain (h : state.labels = none ∨ s.isLabel = false) :
        Blind φ ι id (checkStmts engine ctx state (s :: rest))
          (checkStmts engine ctx (state.moved φ) ((s :: rest).map (Stmt.moved φ))) := by
      rw [map_cons, checkStmts_plain rest h, checkStmts_plain (rest.map (Stmt.moved φ))
        (hlabels ▸ (Stmt.moved_isLabel s).symm ▸ h)]
      refine (blind_warnUnreachable state s).then fun reported => ?_
      refine (hbody.1 ctx).then fun _ => blind_analysis.bind fun a => ?_
      convert hnext _ using 2
      rw [Stmt.moved_goesOn, skippableNames_moved, hlabels]
      cases state.labels <;> simp [SequenceState.moved, Analysis.moved]
    cases s with
    | caseLabel pos label =>
      cases h : state.labels with
      | none => exact hplain (.inl h)
      | some labels =>
        rw [map_cons, Stmt.moved, checkStmts.eq_def, checkStmts.eq_def]
        simp only [hlabels, h]
        refine (blind_checkCase label labels).then fun labels => ?_
        exact hskipped.then fun _ => hnext { labels := some labels }
    | defaultLabel pos =>
      cases h : state.labels with
      | none => exact hplain (.inl h)
      | some labels =>
        rw [map_cons, Stmt.moved, checkStmts.eq_def, checkStmts.eq_def]
        simp only [hlabels, h]
        refine (blind_checkDefault pos labels).then fun labels => ?_
        exact hskipped.then fun _ => hnext { labels := some labels }
    | _ => exact hplain (.inr rfl)

theorem blind_checkStmt (s : Stmt) (ctx : BodyContext) :
    Blind φ ι id (checkStmt engine ctx s) (checkStmt engine ctx (s.moved φ)) := by
  induction s using Stmt.inductionOn generalizing ctx with rw [Stmt.moved, checkStmt, checkStmt]
  | block pos body ih =>
    rw [Stmt.movedAll_eq_map]
    exact blind_inScope (blind_checkStmts ih ctx {})
  | var pos decl =>
    exact blind_checkVarDecl _ decl
  | expr pos e =>
    exact blind_checkOptional (some e)
  | ifThen pos cond yes ihy =>
    exact (blind_checkCondition cond).then fun _ => blind_inScope (ihy ctx)
  | ifElse pos cond yes no ihy ihn =>
    refine (blind_checkCondition cond).then fun _ => ?_
    exact (blind_inScope (ihy ctx)).then fun _ => blind_inScope (ihn ctx)
  | whileLoop pos cond body ihb =>
    exact (blind_checkCondition cond).then fun _ => blind_inScope (ihb _)
  | doWhile pos body cond ihb =>
    exact (blind_inScope (ihb _)).then fun _ => blind_checkCondition cond
  | forLoop pos init cond next body ihb =>
    have hrest : Blind φ ι id
        (do checkOptional engine next; inScope (checkStmt engine ctx.inLoop body))
        (do
          checkOptional engine (next.map (Expr.moved φ))
          inScope (checkStmt engine ctx.inLoop (body.moved φ))) :=
      (blind_checkOptional next).then fun _ => blind_inScope (ihb _)
    refine (blind_checkOptional init).then fun _ => ?_
    cases cond with
    | none => exact hrest
    | some cond => exact (blind_checkCondition cond).then fun _ => hrest
  | switch pos value body ih =>
    rw [Stmt.movedAll_eq_map]
    refine (blind_checkSwitchValue value).then fun type => ?_
    exact blind_inScope (blind_checkStmts ih _ { labels := some { type } })
  | caseLabel pos label =>
    exact blind_report pos _
  | defaultLabel pos =>
    exact blind_report pos _
  | ret pos value =>
    exact blind_checkReturn _ pos value
  | breakOut pos =>
    exact .ite (blind_report pos _) (.pure rfl)
  | continueLoop pos =>
    exact .ite (blind_report pos _) (.pure rfl)
  | empty pos =>
    exact .pure rfl

/-! ## Programs -/

theorem blind_structFields (decls : List FieldDecl) (fields : List Field) :
    Blind φ ι id (structFields engine decls fields)
      (structFields engine (decls.map (FieldDecl.moved φ)) fields) := by
  induction decls generalizing fields with
  | nil => exact .pure rfl
  | cons decl decls ih =>
    rw [map_cons, structFields, structFields]
    refine (blind_resolveType engine decl.pos decl.type).then fun type => ?_
    split
    · exact ih _
    · refine .ite ((blind_report _ _).then fun _ => ih _) ?_
      exact .ite ((blind_report _ _).then fun _ => ih _) (ih _)

theorem blind_collectStruct (decl : StructDecl) :
    Blind φ ι id (collectStruct engine decl) (collectStruct engine (decl.moved φ)) := by
  refine blind_analysis.bind fun a => .ite (blind_report _ _) ?_
  refine (blind_structFields decl.fields []).then fun fields => ?_
  exact blind_record (fun _ => rfl) fun _ => rfl

theorem evalConst_moved (lookup : String → Option Value) (e : Expr) :
    evalConst lookup (e.moved φ) = evalConst lookup e := by
  induction e using Expr.inductionOn with
  | binary node op lhs rhs ihl ihr => rw [Expr.moved, evalConst, evalConst, ihl, ihr]
  | unary node op operand ih => rw [Expr.moved, evalConst, evalConst, ih]
  | conditional node cond yes no ihc ihy ihn =>
    rw [Expr.moved, evalConst, evalConst, ihc, ihy, ihn]
  | _ => simp [Expr.moved, evalConst]

theorem addEarly_moved (early : EarlyConsts) (var : Declarator) :
    addEarly engine early (var.moved φ) = addEarly engine early var := by
  obtain ⟨node, name, init⟩ := var
  cases init with
  | none => rfl
  | some init => simp only [addEarly, evalEarly, Declarator.moved, map_some, evalConst_moved]

theorem blind_collectTypes {m n : Nat} {p q : Program} (h : Relaid φ ι m p n q) (early : EarlyConsts) :
    Blind φ ι id (collectTypes engine early p) (collectTypes engine early q) := by
  induction h generalizing early with
  | nil => exact .pure rfl
  | item item _ _ ih =>
    cases item with
    | struct decl => exact (blind_collectStruct decl).then fun _ => ih early
    | global decl =>
      have hvars : (decl.moved φ).vars.foldl (addEarly engine) early =
          decl.vars.foldl (addEarly engine) early := by
        rw [VarDecl.moved, foldl_map]
        simp only [addEarly_moved]
      rw [Item.moved, collectTypes, collectTypes, hvars]
      exact ih _
    | _ => exact ih early
  | inert hinert _ ih => cases hinert <;> exact ih early

theorem blind_defaultValue (early : EarlyConsts) (param : Param) (type : Ty) :
    Blind φ ι id (defaultValue engine early param type)
      (defaultValue engine early (param.moved φ) type) := by
  obtain ⟨node, spec, name, default⟩ := param
  cases default with
  | none => exact .pure rfl
  | some e =>
    simp only [defaultValue, evalEarly, Param.moved, map_some, evalConst_moved, Expr.moved_pos]
    split
    · exact .ite (.pure rfl) (blind_fail _ _)
    · exact blind_fail _ _
    · exact blind_fail _ _
    · exact blind_fail _ _

theorem blind_resolveParams (early : EarlyConsts) (params : List Param) :
    Blind φ ι id (resolveParams engine early params)
      (resolveParams engine early (params.map (Param.moved φ))) := by
  induction params with
  | nil => exact .pure rfl
  | cons p ps ih =>
    rw [map_cons, resolveParams, resolveParams]
    refine (blind_resolveType engine p.node.pos p.type).then fun type => ?_
    split
    · exact .pure rfl
    · refine .ite (blind_fail _ _) ?_
      refine (blind_defaultValue early p _).then fun default => ih.then fun params => ?_
      split
      · exact .pure rfl
      · exact .pure rfl

theorem blind_resolveResult (decl : FunctionDecl) :
    Blind φ ι id (resolveResult engine decl) (resolveResult engine (decl.moved φ)) := by
  refine (blind_resolveType engine decl.pos decl.ret).then fun type => ?_
  split
  · exact blind_fail _ _
  · exact .pure rfl
  · exact .pure rfl

theorem blind_addFunction (f : FuncInfo) (definition : Option Nat) :
    Blind φ ι id (addFunction f definition) (addFunction (f.moved φ) (definition.map ι)) :=
  blind_record (fun a => by cases definition <;> simp [Analysis.moved]) fun _ => rfl

theorem blind_redeclareFunction (id_ : FuncId) (f : FuncInfo) (decl : FunctionDecl) (ret : Ty)
    (params : List FuncParam) (definition : Option Nat) :
    Blind φ ι id (redeclareFunction id_ f decl ret params definition)
      (redeclareFunction id_ (f.moved φ) (decl.moved φ) ret params (definition.map ι)) := by
  simp only [redeclareFunction, isSome_map]
  refine .ite (blind_report _ _) (.ite (blind_report _ _) (blind_record (fun a => ?_) fun _ => rfl))
  cases definition <;> simp [Analysis.moved, FuncInfo.moved]

theorem blind_declareFunction (early : EarlyConsts) (decl : FunctionDecl) (definition : Option Nat) :
    Blind φ ι id (declareFunction engine early decl definition)
      (declareFunction engine early (decl.moved φ) (definition.map ι)) := by
  simp only [declareFunction, isSome_map]
  refine .ite (blind_report _ _) ?_
  refine (blind_resolveResult decl).then fun ret => ?_
  cases ret with
  | none => exact .pure rfl
  | some ret =>
    refine (blind_resolveParams early decl.params).then fun params => ?_
    cases params with
    | none => exact .pure rfl
    | some params =>
      refine blind_analysis.bind fun a => ?_
      rw [Analysis.moved_function?, show (decl.moved φ).name = decl.name from rfl]
      cases a.function? decl.name with
      | none => exact blind_addFunction _ definition
      | some func =>
        dsimp only
        rw [Analysis.moved_functions]
        cases a.functions[func]? with
        | none => exact .pure rfl
        | some f => exact blind_redeclareFunction func f decl ret params definition

theorem blind_collectFunctions {m n : Nat} {p q : Program} (h : Relaid φ ι m p n q)
    (early : EarlyConsts) :
    Blind φ ι id (collectFunctions engine early m p) (collectFunctions engine early n q) := by
  induction h with
  | nil => exact .pure rfl
  | @item m n _ _ item hitem _ ih =>
    cases item with
    | prototype decl => exact (blind_declareFunction early decl none).then fun _ => ih
    | function decl body =>
      obtain rfl := hitem decl body rfl
      exact (blind_declareFunction early decl (some m)).then fun _ => ih
    | _ => exact ih
  | inert hinert _ ih => cases hinert <;> exact ih

theorem blind_declareParams (ps : List Param) (qs : List FuncParam) :
    Blind φ ι id (declareParams ps qs) (declareParams (ps.map (Param.moved φ)) qs) := by
  induction ps generalizing qs with
  | nil => exact .pure rfl
  | cons p ps ih =>
    cases qs with
    | nil => exact .pure rfl
    | cons q qs =>
      rw [map_cons, declareParams, declareParams]
      refine (blind_newVar _).then fun var => ?_
      refine (blind_declareLocal _ _ _ _).then fun _ => ?_
      exact (blind_recordDecl _ _).then fun _ => ih qs

theorem blind_checkBody (decl : FunctionDecl) (body : List Stmt) (f : FuncInfo) :
    Blind φ ι id (checkBody engine decl body f)
      (checkBody engine (decl.moved φ) (body.map (Stmt.moved φ)) (f.moved φ)) := by
  have hbody : Blind φ ι id
      (do declareParams decl.params f.params; checkStmts engine { ret := f.ret } {} body)
      (do
        declareParams (decl.params.map (Param.moved φ)) f.params
        checkStmts engine { ret := f.ret } {} (body.map (Stmt.moved φ))) :=
    (blind_declareParams decl.params f.params).then fun _ =>
      blind_checkStmts (fun s _ ctx => blind_checkStmt s ctx) { ret := f.ret } {}
  refine (blind_inScope hbody).then fun _ => blind_analysis.bind fun a => ?_
  rw [blockFallsThrough_map_moved]
  exact .ite (blind_report _ _) (.pure rfl)

theorem blind_definedBy (hι : ι.Injective) (name : String) (index : Nat) :
    Blind φ ι (Option.map (FuncInfo.moved φ)) (definedBy name index) (definedBy name (ι index)) := by
  refine blind_analysis.bind fun a => ?_
  rw [Analysis.moved_function?]
  cases a.function? name with
  | none => exact .pure rfl
  | some func =>
    have hdefined : (a.definition? func).map ι = some (ι index) ↔ a.definition? func = some index :=
      (map_injective hι).eq_iff (b := some index)
    refine .pure ?_
    simp only [Analysis.moved_functions, Analysis.moved_definition?, hdefined]
    split <;> rfl

theorem blind_checkItems (hι : ι.Injective) {m n : Nat} {p q : Program} (h : Relaid φ ι m p n q) :
    Blind φ ι id (checkItems engine m p) (checkItems engine n q) := by
  induction h with
  | nil => exact .pure rfl
  | @item m n _ _ item hitem _ ih =>
    cases item with
    | global decl => exact (blind_checkVarDecl _ decl).then fun _ => ih
    | function decl body =>
      obtain rfl := hitem decl body rfl
      refine (blind_definedBy hι decl.name m).bind fun f => ?_
      cases f with
      | none => exact ih
      | some f => exact (blind_checkBody decl body f).then fun _ => ih
    | _ => exact ih
  | inert hinert _ ih => cases hinert <;> exact ih

def movedCandidate (φ : Pos → Pos) (c : FuncId × FuncInfo) : FuncId × FuncInfo := (c.1, c.2.moved φ)

theorem blind_candidate (kind : EntryKind) :
    Blind φ ι (Option.map (movedCandidate φ)) (candidate kind) (candidate kind) := by
  refine blind_analysis.bind fun a => ?_
  rw [Analysis.moved_function?]
  cases a.function? kind.name with
  | none => exact .pure rfl
  | some func =>
    refine .pure ?_
    rw [Analysis.moved_functions]
    cases a.functions[func]? <;> rfl

theorem blind_checkCandidate (kind : EntryKind) :
    Blind φ ι id (checkCandidate kind) (checkCandidate kind) := by
  refine (blind_candidate kind).bind fun c => ?_
  rcases c with _ | ⟨func, f⟩
  · exact .pure rfl
  · refine .ite (blind_report _ _) (.ite (blind_report _ _) ?_)
    exact blind_record (fun _ => rfl) fun _ => rfl

theorem blind_checkEntry : Blind φ ι id checkEntry checkEntry := by
  have hboth : Blind φ ι id (do checkCandidate .main; checkCandidate .startingConditional)
      (do checkCandidate .main; checkCandidate .startingConditional) :=
    (blind_checkCandidate _).then fun _ => blind_checkCandidate _
  refine (blind_candidate .main).bind fun main => ?_
  refine (blind_candidate .startingConditional).bind fun conditional => ?_
  rcases main with _ | ⟨i, main⟩
  · exact hboth
  rcases conditional with _ | ⟨j, conditional⟩
  · exact hboth
  · exact .ite (blind_report _ _) hboth

theorem blind_checkProgram (hι : ι.Injective) {p q : Program} (h : Relaid φ ι 0 p 0 q) :
    Blind φ ι id (checkProgram engine p) (checkProgram engine q) := by
  refine (blind_collectTypes h []).then fun early => ?_
  refine (blind_collectFunctions h early).then fun _ => ?_
  exact (blind_checkItems hι h).then fun _ => blind_checkEntry

end Check

theorem check_relaid (engine : EngineTable) (hι : ι.Injective) {p q : Program}
    (h : Relaid φ ι 0 p 0 q) : check engine q = (check engine p).moved φ ι := by
  have hsame := (@Check.blind_checkProgram φ ι engine hι p q h).same {}
  have hstart : ({} : CheckState).moved φ ι = {} := by simp [CheckState.moved, Analysis.moved]
  rw [hstart] at hsame
  simp only [check, hsame]
  cases Check.checkProgram engine p {}
  simp [Checked.moved, CheckState.moved]

theorem check_moved (φ : Pos → Pos) (engine : EngineTable) (program : Program) :
    check engine (program.moved φ) = (check engine program).moved φ id :=
  check_relaid engine Function.injective_id (.moved φ 0 program)

def Analysis.DefinesFunctions (a : Analysis) (program : Program) : Prop :=
  ∀ func index, a.definition? func = some index →
    ∃ decl body, program[index]? = some (.function decl body)

/-- Numbers of other items are moved behind the program, and the tables stay the same. -/
theorem check_definesFunctions (engine : EngineTable) (program : Program) :
    (check engine program).analysis.DefinesFunctions program := by
  classical
  let P (index : Nat) : Prop := ∃ decl body, program[index]? = some (.function decl body)
  let ι (index : Nat) : Nat := if P index then index else index + program.length + 1
  have hlt {index : Nat} (h : P index) : index < program.length := by
    obtain ⟨decl, body, h⟩ := h
    exact (List.getElem?_eq_some_iff.mp h).1
  have hinjective : ι.Injective := by
    intro i j hij
    simp only [ι] at hij
    split at hij <;> split at hij
    · exact hij
    · next hi hj =>
      have := hlt hi
      omega
    · next hi hj =>
      have := hlt hj
      omega
    · omega
  have hrelaid (m : Nat) (items : Program) (hitems : program.drop m = items) :
      Relaid (fun p => p) ι m items m items := by
    induction items generalizing m with
    | nil => exact .nil
    | cons item items ih =>
      have hitem : program[m]? = some item := by
        rw [← head?_drop, hitems]
        rfl
      have hrest := ih (m + 1) (by rw [← tail_drop, hitems]; rfl)
      have h := Relaid.item item (fun decl body he => ?_) hrest
      · rwa [Item.moved_same] at h
      · exact if_pos ⟨decl, body, he ▸ hitem⟩
  have hsame := check_relaid engine hinjective (hrelaid 0 program rfl)
  rw [Checked.moved_same] at hsame
  have hfixed : (check engine program).analysis.definitions.map (Prod.map id ι) =
      (check engine program).analysis.definitions.map id := by
    rw [List.map_id]
    exact (congrArg (fun c => c.analysis.definitions) hsame).symm
  intro func index hindex
  have hnumber : ι index = index :=
    congrArg Prod.snd (map_inj_left.mp hfixed (func, index) (mem_of_lookup hindex))
  by_contra hnot
  simp only [ι, P, if_neg hnot] at hnumber
  omega

/-- What is found stands where what is read stands. -/
theorem found_within {P : Pos → Prop} [DecidablePred P] (hstart : P {}) (engine : EngineTable)
    {parsed : Parsed} (h : parsed.moved (Relocation.within P).pos = parsed) :
    (∀ e ∈ parsed.errors, P e.pos) ∧ ∀ f ∈ (check engine parsed.program).findings, P f.pos := by
  have hprogram : parsed.program.moved (Relocation.within P).pos = parsed.program :=
    congrArg Parsed.program h
  have hfound := check_moved (Relocation.within P).pos engine parsed.program
  rw [hprogram] at hfound
  constructor
  · intro e he
    have hmap : parsed.errors.map (SyntaxError.moved (Relocation.within P).pos) = parsed.errors.map id := by
      rw [List.map_id]
      exact congrArg Parsed.errors h
    exact Relocation.of_within_pos hstart (congrArg SyntaxError.pos (map_inj_left.mp hmap e he))
  · intro f hf
    have hmap : (check engine parsed.program).findings.map (Finding.moved (Relocation.within P).pos) =
        (check engine parsed.program).findings.map id := by
      rw [List.map_id]
      exact (congrArg Checked.findings hfound).symm
    exact Relocation.of_within_pos hstart (congrArg Finding.pos (map_inj_left.mp hmap f hf))

theorem check_values (engine : EngineTable) (program : Program) {id : NodeId} {v : Value}
    (hv : (check engine program).analysis.consts.get? id = some v) : v.IsShort := by
  have hshort := (@Check.blind_checkProgram _ _ engine Function.injective_id _ _
    (.moved (fun p => p) 0 program)).short {} (by
    intro entry hentry
    cases hentry)
  obtain ⟨before, after, heq, -⟩ := lookup_eq_some_iff.mp hv
  refine hshort (id, v) ?_
  show (id, v) ∈ (check engine program).analysis.consts.entries
  simp [heq]

end Nwscript
