import Nwscript.Proofs.Trace.Expr

/-! # Events of statements

The lines of a statement jump to marks of their own, to the labels of the loops and switches around
it, and to the exit of the routine. -/

open List

namespace Nwscript

variable {targets : List JumpTarget} {body : List Stmt}

open GenState (Same)

/-! ## Events of a tree -/

namespace GenContext

def declSize (c : GenContext) (decl : Declarator) : Int :=
  match c.analysis.decls.get? decl.node.id with
  | some var =>
    match c.analysis.vars[var]? with
    | some info => c.analysis.sizeOf info.type
    | none => 0
  | none => 0

def initEvents (c : GenContext) (size : Int) (init : Option Expr) : List Event :=
  match init with
  | some init => c.exprEvents init ++ [.store size]
  | none => []

def declEvents (c : GenContext) (decl : Declarator) : List Event :=
  c.initEvents (c.declSize decl) decl.init

/-- The value of a return is stored where there is a slot for it, whose size is given. Without one
it is not evaluated. -/
def returnEvents (c : GenContext) (slot : Option Int) (value : Option Expr) : List Event :=
  match value, slot with
  | some e, some size => c.exprEvents e ++ [.store size]
  | _, _ => []

def optionalEvents (c : GenContext) (e : Option Expr) : List Event :=
  match e with
  | some e => c.exprEvents e
  | none => []

/-- The value of a switch is copied for every label that it is compared with. -/
def testEvents : Stmt → List Event
  | .caseLabel _ _ => [.load cellSize]
  | _ => []

mutual

def stmtEvents (c : GenContext) (slot : Option Int) : Stmt → List Event
  | .block _ body => stmtsEvents c slot body
  | .var _ decl => decl.vars.flatMap c.declEvents
  | .expr _ e => c.exprEvents e
  | .ifThen _ cond yes => c.exprEvents cond ++ stmtEvents c slot yes
  | .ifElse _ cond yes no => c.exprEvents cond ++ stmtEvents c slot yes ++ stmtEvents c slot no
  | .whileLoop _ cond body => c.exprEvents cond ++ stmtEvents c slot body
  | .doWhile _ body cond => stmtEvents c slot body ++ c.exprEvents cond
  | .forLoop _ init cond step body =>
    c.optionalEvents init ++ c.optionalEvents cond ++ stmtEvents c slot body ++ c.optionalEvents step
  | .switch _ value body =>
    c.exprEvents value ++ body.flatMap testEvents ++ stmtsEvents c slot body
  | .ret _ value => c.returnEvents slot value
  | .caseLabel _ _ | .defaultLabel _ | .breakOut _ | .continueLoop _ | .empty _ => []

def stmtsEvents (c : GenContext) (slot : Option Int) : List Stmt → List Event
  | [] => []
  | s :: rest => stmtEvents c slot s ++ stmtsEvents c slot rest

end

theorem stmtsEvents_eq_flatMap (c : GenContext) (slot : Option Int) (body : List Stmt) :
    c.stmtsEvents slot body = body.flatMap (c.stmtEvents slot) := by
  induction body with
  | nil => rw [stmtsEvents, flatMap_nil]
  | cons s rest ih => rw [stmtsEvents, ih, flatMap_cons]

end GenContext

/-! ## Lines of statements -/

def Frame.resultSize (f : Frame) : Option Int := f.result.map Prod.snd

namespace Gen

variable {c : GenContext} {f : Frame} {outer : List Label} {events : List Event}

def targetLabels (targets : List JumpTarget) : List Label :=
  targets.flatMap fun t => t.leave :: t.again.toList

@[simp] theorem targetLabels_cons (t : JumpTarget) (targets : List JumpTarget) :
    targetLabels (t :: targets) = t.leave :: t.again.toList ++ targetLabels targets := rfl

theorem mem_targetLabels_of_continueTarget? {label : Label} {depth : Int}
    (h : continueTarget? targets = some (label, depth)) : label ∈ targetLabels targets := by
  obtain ⟨t, ht, hfound⟩ := exists_of_findSome?_eq_some h
  obtain ⟨again, hagain, hpair⟩ := Option.map_eq_some_iff.mp hfound
  obtain rfl : again = label := congrArg Prod.fst hpair
  refine mem_flatMap.mpr ⟨t, ht, .tail _ ?_⟩
  rw [hagain]
  exact mem_singleton_self _

theorem Writes.nested {body : Gen (List Op)} (h : Writes body outer events) :
    Writes (nested body) outer events := by
  refine quiet_depth.writes fun d s => ?_
  refine (h s).bind fun _ s₁ h₁ => (writes_popTo d s₁).bind fun _ _ h₂ => (ends_pure _).mpr ?_
  exact ((h₁.append h₂).outer_mono (by simp)).of_events (append_nil _)

theorem writes_initVar (size : Int) (init : Option Expr) :
    Writes (initVar c f size init) [] (c.initEvents size init) := by
  cases init with
  | none => exact writes_nil
  | some init =>
    intro s
    refine (Emits.start s).then (writes_expr init) fun _ _ h => ?_
    refine h.then (writes_event fun _ => .store _ _ _) fun _ _ h => ?_
    exact h.then (writes_moveSp _) fun _ _ h => h.settled (.refl _) (by simp) (append_nil _)

theorem declSize_eq {decl : Declarator} {var : VarId} {info : VarInfo}
    (hvar : c.analysis.decls.get? decl.node.id = some var) (hinfo : c.analysis.vars[var]? = some info) :
    c.declSize decl = c.analysis.sizeOf info.type := by
  simp [GenContext.declSize, hvar, hinfo]

theorem writes_declareVar (decl : Declarator) :
    Writes (declareVar c f decl) [] (c.declEvents decl) := by
  refine .found fun var hvar => .found fun info hinfo => quiet_depth.writes fun bottom s => ?_
  rw [GenContext.declEvents, declSize_eq hvar hinfo]
  refine (Emits.start s).then (writes_reserve info.type) fun _ _ h => ?_
  refine h.then (writes_initVar _ decl.init) fun _ _ h => ?_
  refine h.quietly (quiet_modify fun _ => ⟨rfl, rfl, rfl⟩) fun _ _ h => ?_
  exact h.settled (.refl _) (by simp) (by simp)

theorem writes_jumpOut {label : Label} (target : Int) (h : label ∈ outer) :
    Writes (jumpOut label target) outer [] := by
  refine quiet_depth.writes fun saved s => ?_
  refine (Emits.start s).then (writes_popTo target) fun _ _ hs => ?_
  refine hs.then (writes_jump label (by simp)) fun _ _ hs => ?_
  exact hs.quietly (quiet_setDepth saved) fun _ _ hs => hs.settled (.refl _) (by simpa using h) rfl

theorem writes_storeResult (value : Option Expr) :
    Writes (storeResult c f value) [] (c.returnEvents f.resultSize value) := by
  cases value with
  | none => exact writes_nil
  | some e =>
    unfold storeResult GenContext.returnEvents Frame.resultSize
    cases f.result with
    | none => exact writes_nil
    | some slot =>
      obtain ⟨bottom, size⟩ := slot
      intro s
      refine (writes_expr e s).bind fun _ s₁ h₁ => (quiet_depth s₁).bind fun d s₂ h₂ => ?_
      refine (quiet_fit _ s₂).bind fun offset s₃ h₃ => ?_
      refine (writes_event (fun _ => .store _ _ _) s₃).bind fun _ _ h₄ => (ends_pure _).mpr ?_
      exact h₁.append (h₄.after (h₂.trans h₃))

theorem writes_returnValue (value : Option Expr) :
    Writes (returnValue c f value) [f.exit] (c.returnEvents f.resultSize value) := by
  refine quiet_depth.writes fun saved s => ?_
  refine (Emits.start s).then (writes_storeResult value) fun _ _ h => ?_
  refine h.then (writes_popTo 0) fun _ _ h => h.then (writes_jump f.exit (by simp)) fun _ _ h => ?_
  exact h.quietly (quiet_setDepth saved) fun _ _ h => h.settled (.refl _) (by simp) (by simp)

theorem writes_optional (e : Option Expr) : Writes (optional c f e) [] (c.optionalEvents e) := by
  cases e with
  | none => exact writes_nil
  | some e => exact writes_discarded e

theorem writes_exitUnless (leave : Label) (e : Option Expr) :
    Writes (exitUnless c f leave e) [leave] (c.optionalEvents e) := by
  cases e with
  | none => exact writes_nil.outer_mono (nil_subset _)
  | some e =>
    intro s
    refine (writes_expr e s).bind fun _ s₁ h₁ => ?_
    refine (writes_jump leave (by simp) s₁).bind fun _ _ h₂ => (ends_pure _).mpr ?_
    exact (h₁.append h₂).of_events (append_nil _)

theorem writes_loopBody {leave again : Label} {body : List JumpTarget → Gen (List Op)}
    (h : ∀ target, Writes (body (target :: targets)) (f.exit :: targetLabels (target :: targets))
      events) :
    Writes (loopBody targets leave again body) (f.exit :: leave :: again :: targetLabels targets)
      events :=
  quiet_depth.writes fun d => (h ⟨leave, some again, d⟩).nested

/-! ### Switches -/

/-- The labels of a switch are left to be marked by its body, and statements that get one have no
events. -/
structure Dispatched (stmts : List Stmt) (s : GenState)
    (found : List Op × List (Option Label) × Option Label) (s' : GenState) : Prop where
  emits : Emits found.2.1.reduceOption [] found.2.1.reduceOption
    (stmts.flatMap GenContext.testEvents) s found.1 s'
  other : ∀ label ∈ found.2.2, label ∈ found.2.1.reduceOption
  labels : List.Forall₂ (fun st label => ∀ l, label = some l → ∀ (c : GenContext) slot,
    c.stmtEvents slot st = []) stmts found.2.1

theorem yields_dispatch (pair : UInt8) (stmts : List Stmt) (s : GenState) :
    Yields (dispatch c pair stmts) s fun found s' => Dispatched stmts s found s' := by
  induction stmts generalizing s with
  | nil => exact (ends_pure _).mpr ⟨.quiet (.refl s), by simp, .nil⟩
  | cons st rest ih =>
    cases st with
    | caseLabel pos e =>
      refine (yields_newLabel s).bind fun label s₁ h₁ => .found fun value _ => ?_
      refine (writes_duplicate s₁).bind fun _ s₂ h₂ => ?_
      refine (writes_constant value s₂).bind fun _ s₃ h₃ => ?_
      refine (writes_emit rfl s₃).bind fun _ s₄ h₄ => ?_
      refine (writes_jump label (by simp) s₄).bind fun _ s₅ h₅ => ?_
      refine (ih s₅).bind fun found s₆ h₆ => (ends_pure _).mpr ?_
      obtain ⟨ops, labels, other⟩ := found
      have hlines := ((((h₁.append h₂).append h₃).append h₄).append h₅).append h₆.emits
      refine ⟨?_, fun l hl => ?_, .cons (fun _ _ _ _ => ?_) h₆.labels⟩
      · exact (hlines.outer_mono (by simp)).of_events (by simp [GenContext.testEvents])
      · exact .tail _ (h₆.other l hl)
      · rw [GenContext.stmtEvents]
    | defaultLabel pos =>
      refine (yields_newLabel s).bind fun label s₁ h₁ => ?_
      refine (ih s₁).bind fun found s₂ h₂ => (ends_pure _).mpr ?_
      obtain ⟨ops, labels, other⟩ := found
      refine ⟨?_, fun l hl => ?_, .cons (fun _ _ _ _ => ?_) h₂.labels⟩
      · exact ((h₁.append h₂.emits).outer_mono (by simp)).of_events (by simp [GenContext.testEvents])
      · cases other with
        | none =>
          obtain rfl : label = l := by simpa using hl
          exact mem_cons_self
        | some first =>
          obtain rfl : first = l := by simpa using hl
          exact .tail _ (h₂.other first rfl)
      · rw [GenContext.stmtEvents]
    | _ =>
      refine (ih s).bind fun found s₁ h₁ => (ends_pure _).mpr ?_
      obtain ⟨ops, labels, other⟩ := found
      exact ⟨h₁.emits, h₁.other, .cons (fun l hl => by cases hl) h₁.labels⟩

theorem yields_switchBody {labels : List (Option Label)}
    (h : ∀ st ∈ body, Writes (stmt c f targets st) outer (c.stmtEvents f.resultSize st))
    (hl : List.Forall₂ (fun st label => ∀ l, label = some l → ∀ (c : GenContext) slot,
      c.stmtEvents slot st = []) body labels) (s : GenState) :
    Yields (switchBody c f targets labels body) s fun ops s' =>
      Emits outer labels.reduceOption [] (c.stmtsEvents f.resultSize body) s ops s' := by
  induction hl generalizing s with
  | nil => exact (ends_pure _).mpr ((Emits.quiet (.refl s)).outer_mono (nil_subset _))
  | @cons st label rest labels hlabel hrest ih =>
    rw [forall_mem_cons] at h
    rw [switchBody, GenContext.stmtsEvents]
    cases label with
    | some l =>
      refine (yields_mark l s).bind fun _ s₁ h₁ => ?_
      refine (ih h.2 s₁).bind fun _ s₂ h₂ => (ends_pure _).mpr ?_
      rw [hlabel l rfl]
      exact h₁.append h₂
    | none =>
      refine (h.1 s).bind fun _ s₁ h₁ => ?_
      refine (ih h.2 s₁).bind fun _ s₂ h₂ => (ends_pure _).mpr ?_
      exact (h₁.append h₂).outer_mono (by simp)

theorem writes_switch {value : Expr}
    (h : ∀ leave d, ∀ st ∈ body, Writes (stmt c f (⟨leave, none, d⟩ :: targets) st)
      (f.exit :: leave :: targetLabels targets) (c.stmtEvents f.resultSize st)) :
    Writes (switch c f value body fun target labels => switchBody c f (target :: targets) labels body)
      (f.exit :: targetLabels targets)
      (c.exprEvents value ++ body.flatMap GenContext.testEvents ++ c.stmtsEvents f.resultSize body) := by
  refine .found fun type _ s => ?_
  refine (Emits.start s).then (writes_expr value) fun _ _ h₁ => h₁.quietly quiet_depth fun d _ h₁ => ?_
  refine h₁.label fun leave s₃ h₁ => (yields_dispatch _ body s₃).bind fun found _ h₄ => ?_
  obtain ⟨tests, labels, other⟩ := found
  refine (h₁.append h₄.emits).then (writes_jump (other.getD leave) (by simp)) fun _ _ h₁ => ?_
  refine h₁.then (yields_switchBody (h leave d) h₄.labels) fun _ _ h₁ => ?_
  refine h₁.then (writes_popTo d) fun _ _ h₁ => h₁.then (yields_mark leave) fun _ _ h₁ => ?_
  refine h₁.then (writes_moveSp _) fun _ _ h₁ => h₁.settled (by simp) ?_ (by simp)
  have hother : other.getD leave ∈ leave :: labels.reduceOption := by
    cases other with
    | none => exact mem_cons_self
    | some label => exact .tail _ (h₄.other label rfl)
  intro label hlabel
  grind

/-! ### Statements -/

theorem writes_stmts
    (h : ∀ st ∈ body, Writes (stmt c f targets st) outer (c.stmtEvents f.resultSize st)) :
    Writes (stmts c f targets body) outer (c.stmtsEvents f.resultSize body) := by
  induction body with
  | nil => exact writes_nil.outer_mono (nil_subset _)
  | cons st rest ih =>
    rw [forall_mem_cons] at h
    rw [stmts, GenContext.stmtsEvents]
    exact h.1.append (ih h.2)

theorem writes_stmt (targets : List JumpTarget) (st : Stmt) :
    Writes (stmt c f targets st) (f.exit :: targetLabels targets) (c.stmtEvents f.resultSize st) := by
  induction st using Stmt.inductionOn generalizing targets with try rw [stmt, GenContext.stmtEvents]
  | block pos body ih => exact (writes_stmts fun st hst => ih st hst targets).nested
  | var pos decl => exact (writes_sequence fun d _ => writes_declareVar d).outer_mono (nil_subset _)
  | expr pos e => exact (writes_discarded e).outer_mono (nil_subset _)
  | ifThen pos cond yes ih =>
    intro s
    refine (Emits.start s).label fun other _ h => h.then (writes_expr cond) fun _ _ h => ?_
    refine h.then (writes_jump other (by simp)) fun _ _ h => h.then (ih targets).nested fun _ _ h => ?_
    exact h.then (yields_mark other) fun _ _ h => h.settled (.refl _) (fun _ _ => by grind) (by simp)
  | ifElse pos cond yes no ihy ihn =>
    intro s
    refine (Emits.start s).label fun other _ h => h.then (writes_expr cond) fun _ _ h => ?_
    refine h.then (writes_jump other (by simp)) fun _ _ h => h.then (ihy targets).nested fun _ _ h => ?_
    refine h.label fun join _ h => h.then (writes_jump join (by simp)) fun _ _ h => ?_
    refine h.then (yields_mark other) fun _ _ h => h.then (ihn targets).nested fun _ _ h => ?_
    exact h.then (yields_mark join) fun _ _ h => h.settled (.refl _) (fun _ _ => by grind) (by simp)
  | whileLoop pos cond body ih =>
    intro s
    refine (Emits.start s).label fun top _ h => h.label fun leave _ h => ?_
    refine h.then (yields_mark top) fun _ _ h => h.then (writes_exitUnless leave cond) fun _ _ h => ?_
    refine h.then (writes_loopBody fun target => ih (target :: targets)) fun _ _ h => ?_
    refine h.then (writes_jump top (by simp)) fun _ _ h => h.then (yields_mark leave) fun _ _ h => ?_
    exact h.settled (.refl _) (fun _ _ => by grind) (by simp [GenContext.optionalEvents])
  | doWhile pos body cond ih =>
    intro s
    refine (Emits.start s).label fun top _ h => h.label fun next _ h => h.label fun leave _ h => ?_
    refine h.then (yields_mark top) fun _ _ h => ?_
    refine h.then (writes_loopBody fun target => ih (target :: targets)) fun _ _ h => ?_
    refine h.then (yields_mark next) fun _ _ h => h.then (writes_expr cond) fun _ _ h => ?_
    refine h.then (writes_jump top (by simp)) fun _ _ h => h.then (yields_mark leave) fun _ _ h => ?_
    exact h.settled (.refl _) (fun _ _ => by grind) (by simp)
  | forLoop pos init cond step body ih =>
    intro s
    refine (Emits.start s).then (writes_optional init) fun _ _ h => h.label fun top _ h => ?_
    refine h.label fun next _ h => h.label fun leave _ h => h.then (yields_mark top) fun _ _ h => ?_
    refine h.then (writes_exitUnless leave cond) fun _ _ h => ?_
    refine h.then (writes_loopBody fun target => ih (target :: targets)) fun _ _ h => ?_
    refine h.then (yields_mark next) fun _ _ h => h.then (writes_optional step) fun _ _ h => ?_
    refine h.then (writes_jump top (by simp)) fun _ _ h => h.then (yields_mark leave) fun _ _ h => ?_
    exact h.settled (.refl _) (fun _ _ => by grind) (by simp)
  | switch pos value body ih =>
    exact writes_switch fun leave d st hst => ih st hst (⟨leave, none, d⟩ :: targets)
  | caseLabel pos e => exact writes_throw _
  | defaultLabel pos => exact writes_throw _
  | ret pos value => exact (writes_returnValue value).outer_mono (by simp)
  | breakOut pos =>
    cases targets with
    | nil =>
      rw [stmt]
      exact writes_throw _
    | cons target targets =>
      rw [stmt, GenContext.stmtEvents]
      exact writes_jumpOut _ (by simp)
  | continueLoop pos =>
    cases htarget : continueTarget? targets with
    | none => exact writes_throw _
    | some target =>
      obtain ⟨label, depth⟩ := target
      have hlabel := mem_targetLabels_of_continueTarget? htarget
      exact writes_jumpOut depth (.tail _ hlabel)
  | empty pos => exact writes_nil.outer_mono (nil_subset _)

theorem writes_block (body : List Stmt) :
    Writes (block c f body) [f.exit] (c.stmtsEvents f.resultSize body) :=
  (writes_stmts fun st _ => writes_stmt [] st).nested

end Gen

end Nwscript
