import Nwscript.Proofs.Trace.Basic

/-! # Events of expressions

The events of an expression in the order in which its lines stand. They are read off the tree and the
tables: a constant has none, an operand comes before its operator, and the last argument of a call
comes first. -/

open List Option

namespace Nwscript

variable {events : List Event} {args : List Expr}

open GenState (Same)

/-! ## Events of a tree -/

namespace GenContext

def partSize (c : GenContext) (e : Expr) : Int :=
  match Gen.placeOf c.analysis e with
  | some part => c.analysis.sizeOf part.type
  | none => 0

/-- Vectors and structures are compared as a whole; other operators have no event. -/
def operatorEvents (c : GenContext) (op : BinOp) (lhs rhs : Option Ty) : List Event :=
  match lhs, rhs with
  | some left, some right =>
    if Gen.comparesBytes op left right then [.compare (c.analysis.sizeOf left)] else []
  | _, _ => []

def cutEvents (c : GenContext) (type : Option Ty) (name : String) : List Event :=
  match type with
  | some type =>
    match c.analysis.structs.field? type name with
    | some (offset, fieldType) =>
      [.destruct (c.analysis.sizeOf type) offset (c.analysis.sizeOf fieldType)]
    | none => []
  | none => []

def callEvents (c : GenContext) (node : NodeId) (argc : Nat) : List Event :=
  match c.analysis.calls.get? node with
  | some (.user func) => [.call (some node) func]
  | some (.engine ordinal) =>
    match c.engine.functionAt? ordinal with
    | some info => [.action node info.ordinal argc]
    | none => []
  | none => []

def pushedArgs (c : GenContext) (node : NodeId) (argc : Nat) : Nat :=
  match c.analysis.calls.get? node with
  | some (.user func) =>
    match c.analysis.functions[func]? with
    | some info => info.params.length
    | none => 0
  | _ => argc

mutual

def exprEvents (c : GenContext) (e : Expr) : List Event :=
  match c.analysis.valueOf e with
  | some _ => []
  | none =>
    match e with
    | .literal _ _ => []
    | .ident node name => [.load (c.partSize (.ident node name))]
    | .binary _ op lhs rhs =>
      if op = .logAnd || op = .logOr then
        exprEvents c lhs ++ [.load cellSize, .load cellSize] ++ exprEvents c rhs
      else
        exprEvents c lhs ++ exprEvents c rhs ++
          c.operatorEvents op (c.analysis.typeOf lhs) (c.analysis.typeOf rhs)
    | .unary _ _ operand => exprEvents c operand
    | .step _ _ _ _ => [.load cellSize]
    | .call node _ args =>
      ((argEvents c args).take (c.pushedArgs node.id args.length)).reverse.flatten ++
        c.callEvents node.id args.length
    | .assign _ op target value =>
      match op with
      | none => exprEvents c value ++ [.store (c.partSize target)]
      | some op =>
        [.load (c.partSize target)] ++ exprEvents c value ++
          c.operatorEvents op ((Gen.placeOf c.analysis target).map Gen.Part.type)
            (c.analysis.typeOf value) ++
          [.store (c.partSize target)]
    | .field node base name =>
      match Gen.placeOf c.analysis (.field node base name) with
      | some part => [.load (c.analysis.sizeOf part.type)]
      | none => exprEvents c base ++ c.cutEvents (c.analysis.typeOf base) name
    | .conditional _ cond yes no => exprEvents c cond ++ exprEvents c yes ++ exprEvents c no

def argEvents (c : GenContext) : List Expr → List (List Event)
  | [] => []
  | e :: es => exprEvents c e :: argEvents c es

end

theorem argEvents_eq_map (c : GenContext) (es : List Expr) : c.argEvents es = es.map c.exprEvents := by
  induction es with
  | nil => rw [argEvents, map_nil]
  | cons e es ih => rw [argEvents, ih, map_cons]

end GenContext

/-! ## Lines of expressions -/

namespace Gen

variable {c : GenContext} {f : Frame}

theorem writes_load (var : VarId) (offset size : Int) :
    Writes (load c var offset size) [] [.load size] :=
  (quiet_address c var offset).writes fun _ => writes_event fun _ => .load _ _ _

theorem writes_store (var : VarId) (offset size : Int) :
    Writes (store c var offset size) [] [.store size] :=
  (quiet_address c var offset).writes fun _ => writes_event fun _ => .store _ _ _

theorem writes_stepVar (s : Step) (var : VarId) : Writes (stepVar c s var) [] [] :=
  (quiet_address c var 0).writes fun _ => writes_emit rfl

theorem writes_constant (value : Value) : Writes (constant value) [] [] := by
  have hconst (k : Constant) : Writes (emit (.const k)) [] [] := writes_emit rfl
  cases value with
  | vector x y z =>
    intro s
    refine (hconst _ s).bind fun _ s₁ h₁ => (hconst _ s₁).bind fun _ s₂ h₂ => ?_
    exact (hconst _ s₂).bind fun _ _ h₃ => (ends_pure _).mpr ((h₁.append h₂).append h₃)
  | _ => exact hconst _

theorem writes_sequence {α : Type} {g : α → Gen (List Op)} {outer : List Label}
    {events : α → List Event} {xs : List α} (h : ∀ x ∈ xs, Writes (g x) outer (events x)) :
    Writes (sequence (xs.map g)) outer (xs.flatMap events) := by
  induction xs with
  | nil => exact writes_nil.outer_mono (nil_subset _)
  | cons x xs ih =>
    rw [forall_mem_cons] at h
    rw [flatMap_cons]
    exact h.1.append (ih h.2)

theorem writes_reserveCells {otherwise : Gen (List Op)} (h : Writes otherwise [] []) (type : Ty) :
    Writes (reserveCells otherwise type) [] [] := by
  have hcell (byte : UInt8) : Writes (emit (.reserve byte)) [] [] := writes_emit rfl
  cases type with
  | vector =>
    intro s
    refine (hcell _ s).bind fun _ s₁ h₁ => (hcell _ s₁).bind fun _ s₂ h₂ => ?_
    exact (hcell _ s₂).bind fun _ _ h₃ => (ends_pure _).mpr ((h₁.append h₂).append h₃)
  | int | float | string | object | engine slot name => exact hcell _
  | void | action | struct name => exact h

theorem writes_reserveIn (defs : List StructDef) (type : Ty) : Writes (reserveIn defs type) [] [] := by
  induction defs generalizing type with
  | nil =>
    cases type with
    | struct name => exact writes_throw _
    | _ => exact writes_reserveCells (writes_throw _) _
  | cons d older ih =>
    cases type with
    | struct name =>
      rw [reserveIn]
      split
      · refine (writes_sequence fun field _ => ih field.type).of_events ?_
        simp
      · exact ih _
    | _ => exact writes_reserveCells (writes_throw _) _

theorem writes_reserve (type : Ty) : Writes (reserve c type) [] [] := writes_reserveIn _ _

theorem writes_duplicate : Writes duplicate [] [.load cellSize] := writes_event fun _ => .load _ _ _

theorem writes_binaryOp (op : BinOp) (lhs rhs : Ty) :
    Writes (binaryOp c op lhs rhs) [] (c.operatorEvents op (some lhs) (some rhs)) := by
  refine .found fun i hi => ?_
  unfold binaryInstr? at hi
  by_cases hbytes : comparesBytes op lhs rhs = true
  · rw [if_pos hbytes] at hi
    cases hi
    have hevents : [Event.compare (c.analysis.sizeOf lhs)] =
        c.operatorEvents op (some lhs) (some rhs) := by simp [GenContext.operatorEvents, hbytes]
    exact (writes_event fun _ => .compare _ _).of_events hevents
  · rw [if_neg hbytes] at hi
    obtain ⟨pair, -, rfl⟩ := map_eq_some_iff.mp hi
    have hevents : [] = c.operatorEvents op (some lhs) (some rhs) := by
      simp [GenContext.operatorEvents, hbytes]
    exact (writes_emit rfl).of_events hevents

theorem writes_unaryInstr (op : UnOp) (type : Ty) : Writes (emit (unaryInstr op type)) [] [] := by
  cases op <;> exact writes_emit rfl

theorem yields_place (e : Expr) (s : GenState) :
    Yields (place c e) s fun part s' => part = placeOf c.analysis e ∧ s' = s := by
  induction e using Expr.inductionOn with
  | ident node name =>
    rw [place, placeOf]
    cases c.analysis.refs.get? node.id with
    | none => exact (ends_pure _).mpr ⟨rfl, rfl⟩
    | some var =>
      refine .found fun info hinfo => (ends_pure _).mpr ⟨?_, rfl⟩
      simp [hinfo]
  | field node base name ih =>
    rw [place, placeOf]
    refine ih.bind ?_
    rintro part s' ⟨hpart, rfl⟩
    cases hbase : placeOf c.analysis base with
    | none =>
      rw [hbase] at hpart
      subst hpart
      exact (ends_pure _).mpr ⟨rfl, rfl⟩
    | some part' =>
      rw [hbase] at hpart
      subst hpart
      refine .found fun found hfound => (ends_pure _).mpr ⟨?_, rfl⟩
      simp [hfound]
  | _ => exact (ends_pure _).mpr ⟨rfl, rfl⟩

theorem onwardJump_ne_call (op : BinOp) : onwardJump op ≠ .call := by
  unfold onwardJump
  split <;> simp

theorem writes_shortCircuit {op : BinOp} {lhs rhs : Gen (List Op)} {left right : List Event}
    (hl : Writes lhs [] left) (hr : Writes rhs [] right) :
    Writes (shortCircuit op lhs rhs) [] (left ++ [.load cellSize, .load cellSize] ++ right) := by
  intro s
  refine (Emits.start s).label fun onward _ h => h.label fun join _ h => h.then hl fun _ _ h => ?_
  refine h.quietly quiet_depth fun d _ h => h.then writes_duplicate fun _ _ h => ?_
  refine h.then (writes_jump onward (onwardJump_ne_call op)) fun _ _ h => ?_
  refine h.then writes_duplicate fun _ _ h => h.then (writes_jump join (by simp)) fun _ _ h => ?_
  refine h.quietly (quiet_setDepth d) fun _ _ h => h.then (yields_mark onward) fun _ _ h => ?_
  refine h.then hr fun _ _ h => h.then (yields_mark join) fun _ _ h => ?_
  exact h.then (writes_emit rfl) fun _ _ h => h.settled (.refl _) (by simp) (by simp)

theorem writes_choice {cond yes no : Gen (List Op)} {test first second : List Event}
    (hc : Writes cond [] test) (hy : Writes yes [] first) (hn : Writes no [] second) :
    Writes (choice cond yes no) [] (test ++ first ++ second) := by
  intro s
  refine (Emits.start s).label fun other _ h => h.label fun join _ h => h.then hc fun _ _ h => ?_
  refine h.then (writes_jump other (by simp)) fun _ _ h => h.quietly quiet_depth fun d _ h => ?_
  refine h.then hy fun _ _ h => h.then (writes_jump join (by simp)) fun _ _ h => ?_
  refine h.quietly (quiet_setDepth d) fun _ _ h => h.then (yields_mark other) fun _ _ h => ?_
  refine h.then hn fun _ _ h => h.then (yields_mark join) fun _ _ h => ?_
  exact h.settled (.refl _) (by simp) (by simp)

theorem writes_storedAction {call : Gen (List Op)} (h : Writes call [] events) :
    Writes (storedAction c f call) [] events := by
  intro s
  refine (Emits.start s).label fun after _ hs => hs.quietly quiet_depth fun d _ hs => ?_
  refine hs.quietly (quiet_fit _) fun _ _ hs => hs.then (writes_emit rfl) fun _ _ hs => ?_
  refine hs.then (writes_jump after (by simp)) fun _ _ hs => hs.then h fun _ _ hs => ?_
  refine hs.then (writes_popTo d) fun _ _ hs => hs.then (writes_emit rfl) fun _ _ hs => ?_
  refine hs.quietly (quiet_setDepth d) fun _ _ hs => hs.then (yields_mark after) fun _ _ hs => ?_
  exact hs.settled (.refl _) (by simp) (by simp)

theorem yields_funcLabel (node : Option NodeId) (func : FuncId) (s : GenState) :
    Yields (funcLabel func) s fun label s₁ => ∀ s', Same s₁ s' →
      Emits [] [] [] [.call node func] s [.jump .call label] s' := by
  refine ends_bind.mpr (ends_get.mpr ?_)
  split
  · rename_i label hfound
    refine (ends_pure label).mpr fun s' hs => .event hs (.call ?_)
    obtain ⟨before, after, hlabels, -⟩ := lookup_eq_some_iff.mp hfound
    rw [hs.funcLabels, hlabels]
    exact mem_append_right _ mem_cons_self
  · rename_i hnone
    refine ends_bind.mpr (ends_newLabel.mpr (ends_bind.mpr (ends_modify.mpr ?_)))
    intro s' hs
    refine ⟨[(func, s.nextLabel)], [], ⟨?_, ?_, ?_, ?_⟩, ?_, .refl _, ?_, ?_, ?_⟩
    · exact hs.funcLabels
    · exact hs.queue
    · exact nodup_singleton func
    · intro other hother hold
      obtain rfl := mem_singleton.mp hother
      obtain ⟨p, hp, rfl⟩ := List.mem_map.mp hold
      have hne := lookup_eq_none_iff.mp hnone p hp
      simp at hne
    · rw [hs.nextLabel]
      exact (Between.nil (Nat.le_refl s.nextLabel)).cons_next
    · simp
    · simp
    · refine .cons (.call ?_) .nil
      rw [hs.funcLabels]
      exact mem_cons_self

theorem writes_defaults (name : String) (index : Nat) (params : List FuncParam) :
    Writes (defaults name index params) [] [] := by
  induction params generalizing index with
  | nil => exact writes_nil
  | cons p params ih =>
    intro s
    refine (ih (index + 1) s).bind fun _ s₁ h₁ => .found fun value _ => ?_
    exact (writes_constant value s₁).bind fun _ _ h₂ => (ends_pure _).mpr (h₁.append h₂)

theorem writes_reserveResult (info : FuncInfo) : Writes (reserveResult c info) [] [] := by
  unfold reserveResult
  split
  · exact writes_nil
  · exact writes_reserve _

theorem writes_userCall (node : Option NodeId) (func : FuncId) (info : FuncInfo) {args : Gen (List Op)}
    (h : Writes args [] events) :
    Writes (userCall c func info args) [] (events ++ [.call node func]) := by
  intro s
  refine (writes_reserveResult info s).bind fun _ s₁ h₁ => ?_
  refine (h s₁).bind fun _ s₂ h₂ => ?_
  refine (yields_funcLabel node func s₂).bind fun label s₃ h₃ => ?_
  refine ends_bind.mpr ((quiet_addDepth _ s₃).bind fun _ s₄ h₄ => ?_)
  exact (ends_pure _).mpr ((ends_pure _).mpr ((h₁.append h₂).append (h₃ s₄ h₄)))

theorem writes_userArgs {name : String}
    (h : ∀ e ∈ args, Writes (expr c f e) [] (c.exprEvents e)) (index : Nat) (params : List FuncParam) :
    Writes (userArgs c f name index params args) []
      ((c.argEvents args).take params.length).reverse.flatten := by
  induction args generalizing index params with
  | nil => simpa [userArgs, GenContext.argEvents] using writes_defaults name index params
  | cons arg args ih =>
    rw [forall_mem_cons] at h
    cases params with
    | nil => simpa [userArgs] using writes_nil
    | cons p params =>
      rw [userArgs, GenContext.argEvents]
      refine ((ih h.2 (index + 1) params).append h.1).of_events ?_
      simp

theorem yields_engineArgs (h : ∀ e ∈ args, Writes (expr c f e) [] (c.exprEvents e))
    (params : List EngineParam) (s : GenState) : Yields (engineArgs c f params args) s fun pushed s' =>
      Emits [] [] [] (c.argEvents args).reverse.flatten s pushed.1 s' := by
  induction args generalizing params s with
  | nil =>
    simp only [engineArgs, ends_pure, GenContext.argEvents, reverse_nil, flatten_nil]
    exact .quiet (.refl s)
  | cons arg args ih =>
    rw [forall_mem_cons] at h
    have hevents : (c.argEvents (arg :: args)).reverse.flatten =
        (c.argEvents args).reverse.flatten ++ c.exprEvents arg := by
      simp [GenContext.argEvents]
    rw [engineArgs, hevents]
    refine (ih h.2 params.tail s).bind fun later s₁ h₁ => ?_
    obtain ⟨ops, size⟩ := later
    refine .ite ?_ ?_
    · refine (writes_storedAction h.1 s₁).bind fun _ s₂ h₂ => ?_
      exact (ends_pure _).mpr (h₁.append h₂)
    · refine (h.1 s₁).bind fun _ s₂ h₂ => .found fun type _ => ?_
      exact (ends_pure _).mpr (h₁.append h₂)

theorem writes_engineCall (node : NodeId) (info : EngineFunction) (argc : Nat)
    {args : Gen (List Op × Int)}
    (h : ∀ s, Yields args s fun pushed s' => Emits [] [] [] events s pushed.1 s') :
    Writes (engineCall c info argc args) [] (events ++ [.action node info.ordinal argc]) := by
  intro s
  refine (h s).bind fun pushed s₁ h₁ => ?_
  obtain ⟨ops, size⟩ := pushed
  refine ends_bind.mpr ((quiet_addDepth _ s₁).bind fun _ s₂ h₂ => ?_)
  exact (ends_pure _).mpr ((ends_pure _).mpr (h₁.append (.event h₂ (.action node _ argc))))

theorem writes_stepAndLoad (st : Step) (order : StepOrder) (var : VarId) :
    Writes (stepAndLoad c st order var) [] [.load cellSize] := by
  cases order with
  | stepFirst => exact (writes_stepVar st var).append (writes_load var 0 cellSize)
  | valueFirst => exact (writes_load var 0 cellSize).append (writes_stepVar st var)

theorem writes_keepField {type : Ty} {name : String} {base : Gen (List Op)}
    (h : Writes base [] events) :
    Writes (keepField c type name base) [] (events ++ c.cutEvents (some type) name) := by
  refine .found fun found hfound => ?_
  obtain ⟨offset, fieldType⟩ := found
  have hevents : c.cutEvents (some type) name =
      [.destruct (c.analysis.sizeOf type) offset (c.analysis.sizeOf fieldType)] := by
    simp [GenContext.cutEvents, hfound]
  rw [hevents]
  intro s
  refine (h s).bind fun _ s₁ h₁ => ?_
  refine (writes_event (fun _ => .destruct _ _ _) s₁).bind fun _ s₂ h₂ => ?_
  exact (ends_pure _).mpr (h₁.append h₂)

theorem writes_call (node : Node) (name : String)
    (h : ∀ e ∈ args, Writes (expr c f e) [] (c.exprEvents e))
    (hconst : c.analysis.valueOf (.call node name args) = none) :
    Writes (expr c f (.call node name args)) [] (c.exprEvents (.call node name args)) := by
  have hplain : c.analysis.consts.get? (Expr.call node name args).id = none := hconst
  rw [expr, GenContext.exprEvents, hplain, hconst]
  refine .found fun callee hcallee => ?_
  cases callee with
  | user func =>
    refine .found fun info hinfo => ?_
    have hpushed : c.pushedArgs node.id args.length = info.params.length := by
      simp [GenContext.pushedArgs, hcallee, hinfo]
    have hevent : c.callEvents node.id args.length = [.call (some node.id) func] := by
      simp [GenContext.callEvents, hcallee]
    dsimp only
    rw [hpushed, hevent]
    exact writes_userCall (some node.id) func info (writes_userArgs h 0 info.params)
  | engine ordinal =>
    refine .found fun info hinfo => ?_
    have hlength : (c.argEvents args).length = args.length := by simp [GenContext.argEvents_eq_map]
    have hpushed : (c.argEvents args).take (c.pushedArgs node.id args.length) = c.argEvents args := by
      simp [GenContext.pushedArgs, hcallee, ← hlength]
    have hevent : c.callEvents node.id args.length = [.action node.id info.ordinal args.length] := by
      simp [GenContext.callEvents, hcallee, hinfo]
    dsimp only
    rw [hpushed, hevent]
    exact writes_engineCall node.id info args.length (yields_engineArgs h info.params)

theorem writes_assign (node : Node) (op : Option BinOp) (target : Expr) {value : Expr}
    (h : Writes (expr c f value) [] (c.exprEvents value))
    (hconst : c.analysis.valueOf (.assign node op target value) = none) :
    Writes (expr c f (.assign node op target value)) []
      (c.exprEvents (.assign node op target value)) := by
  have hplain : c.analysis.consts.get? (Expr.assign node op target value).id = none := hconst
  unfold expr GenContext.exprEvents
  rw [hplain, hconst]
  intro s
  refine (yields_place target s).bind ?_
  rintro found s₀ ⟨rfl, rfl⟩
  refine .found fun part hpart => ?_
  have hsize : c.partSize target = c.analysis.sizeOf part.type := by
    simp [GenContext.partSize, hpart]
  dsimp only
  rw [hpart, hsize]
  cases op with
  | none => exact h.append (writes_store part.var part.offset _) s₀
  | some op =>
    refine (writes_load part.var part.offset _ s₀).bind fun _ s₁ h₁ => ?_
    refine (h s₁).bind fun _ s₂ h₂ => .found fun type htype => ?_
    have htype : c.analysis.typeOf value = some type := htype
    refine (writes_binaryOp op part.type type s₂).bind fun _ s₃ h₃ => ?_
    refine (writes_store part.var part.offset _ s₃).bind fun _ s₄ h₄ => (ends_pure _).mpr ?_
    dsimp only
    rw [htype, map_some]
    exact ((h₁.append h₂).append h₃).append h₄

theorem writes_field (node : Node) {base : Expr} (name : String)
    (h : Writes (expr c f base) [] (c.exprEvents base))
    (hconst : c.analysis.valueOf (.field node base name) = none) :
    Writes (expr c f (.field node base name)) [] (c.exprEvents (.field node base name)) := by
  have hplain : c.analysis.consts.get? (Expr.field node base name).id = none := hconst
  rw [expr, GenContext.exprEvents, hplain, hconst]
  intro s
  refine (yields_place (.field node base name) s).bind ?_
  rintro found s₀ ⟨hfound, rfl⟩
  dsimp only
  rw [← hfound]
  cases found with
  | some part => exact writes_load part.var part.offset _ s₀
  | none =>
    refine .found fun type htype => ?_
    have htype : c.analysis.typeOf base = some type := htype
    dsimp only
    rw [htype]
    exact writes_keepField h s₀

theorem writes_binary (node : Node) (op : BinOp) {lhs rhs : Expr}
    (hl : Writes (expr c f lhs) [] (c.exprEvents lhs))
    (hr : Writes (expr c f rhs) [] (c.exprEvents rhs))
    (hconst : c.analysis.valueOf (.binary node op lhs rhs) = none) :
    Writes (expr c f (.binary node op lhs rhs)) [] (c.exprEvents (.binary node op lhs rhs)) := by
  have hplain : c.analysis.consts.get? (Expr.binary node op lhs rhs).id = none := hconst
  rw [expr, GenContext.exprEvents, hplain, hconst]
  dsimp only
  by_cases hlogical : (op = .logAnd || op = .logOr) = true
  · rw [if_pos hlogical, if_pos hlogical]
    exact writes_shortCircuit hl hr
  · rw [if_neg hlogical, if_neg hlogical]
    intro s
    refine (hl s).bind fun _ s₁ h₁ => (hr s₁).bind fun _ s₂ h₂ => ?_
    refine .found fun left hleft => .found fun right hright => ?_
    have hleft : c.analysis.typeOf lhs = some left := hleft
    have hright : c.analysis.typeOf rhs = some right := hright
    refine (writes_binaryOp op left right s₂).bind fun _ s₃ h₃ => (ends_pure _).mpr ?_
    rw [hleft, hright]
    exact (h₁.append h₂).append h₃

theorem writes_expr (e : Expr) : Writes (expr c f e) [] (c.exprEvents e) := by
  induction e using Expr.childInduction with
  | h e ih =>
    cases hconst : c.analysis.valueOf e with
    | some value =>
      have hplain : c.analysis.consts.get? e.id = some value := hconst
      unfold expr GenContext.exprEvents
      rw [hplain, hconst]
      exact writes_constant value
    | none =>
      have hplain : c.analysis.consts.get? e.id = none := hconst
      cases e with
      | literal node value =>
        rw [expr, GenContext.exprEvents, hplain, hconst]
        exact writes_constant value
      | ident node name =>
        rw [expr, GenContext.exprEvents, hplain, hconst]
        refine .found fun var hvar => .found fun info hinfo => ?_
        have hsize : c.partSize (.ident node name) = c.analysis.sizeOf info.type := by
          have hvar : c.analysis.refs.get? node.id = some var := hvar
          simp [GenContext.partSize, placeOf, hvar, hinfo]
        dsimp only
        rw [hsize]
        exact writes_load var 0 _
      | binary node op lhs rhs =>
        exact writes_binary node op (ih lhs (by simp))
          (ih rhs (by simp)) hconst
      | unary node op operand =>
        rw [expr, GenContext.exprEvents, hplain, hconst]
        intro s
        refine (ih operand (by simp) s).bind fun _ s₁ h₁ => .found fun type _ => ?_
        refine (writes_unaryInstr op type s₁).bind fun _ _ h₂ => (ends_pure _).mpr ?_
        exact (h₁.append h₂).of_events (append_nil _)
      | step node st order target =>
        rw [expr, GenContext.exprEvents, hplain, hconst]
        exact .found fun var _ => writes_stepAndLoad st order var
      | call node name args =>
        exact writes_call node name (fun e he => ih e (by simpa [Expr.children] using he)) hconst
      | assign node op target value =>
        exact writes_assign node op target (ih value (by simp)) hconst
      | field node base name =>
        exact writes_field node name (ih base (by simp)) hconst
      | conditional node cond yes no =>
        rw [expr, GenContext.exprEvents, hplain, hconst]
        exact writes_choice (ih cond (by simp)) (ih yes (by simp))
          (ih no (by simp))

theorem writes_discarded (e : Expr) : Writes (discarded c f e) [] (c.exprEvents e) := by
  intro s
  refine (writes_expr e s).bind fun _ s₁ h₁ => .found fun type _ => .ite ?_ ?_
  · refine (writes_moveSp _ s₁).bind fun _ _ h₂ => (ends_pure _).mpr ?_
    exact (h₁.append h₂).of_events (append_nil _)
  · exact (ends_pure _).mpr h₁

end Gen
end Nwscript
