import Nwscript.Proofs.Typing.Settled

/-! # Checks of one node

The steps of a check that write about one node, one lemma for each: what is known about the node
behind the step, unless an error is reported. -/

namespace Nwscript
namespace Check

open CheckState

variable {α β : Type}

/-! ## Steps that write about one node -/

/-- A check writes about one node only; if no error is reported, then it declares nothing, and `Q`
holds of what is known about the node behind it. -/
structure Own (id : NodeId) (m : Check α) (s : CheckState) (Q : α → NodeFacts → Prop) : Prop where
  writes : Writes [id] s (m s).2
  stays : (m s).2.NoErrors → Stays s (m s).2
  post : (m s).2.NoErrors → Q (m s).1 ((m s).2.analysis.facts id)

namespace Own

variable {id : NodeId} {m : Check α} {k : α → Check β} {s : CheckState} {Q Q' : α → NodeFacts → Prop}
  {R : β → NodeFacts → Prop}

theorem bind (hm : Own id m s Q) (hk : Writes [id] s (m s).2 → Own id (k (m s).1) (m s).2 fun b f =>
      Q (m s).1 ((m s).2.analysis.facts id) → R b f) : Own id (m >>= k) s R := by
  have hk := hk hm.writes
  refine ⟨(hm.writes.trans hk.writes).subset ?_, fun he => ?_, fun he => ?_⟩
  · intro x hx
    simpa using hx
  · exact (hm.stays (hk.writes.noErrors he)).trans (hk.stays he)
  · exact hk.post he (hm.post (hk.writes.noErrors he))

theorem read {a : α} (h : m s = (a, s)) (hk : Own id (k a) s R) : Own id (m >>= k) s R := by
  have heq : (m >>= k) s = k a s := by
    show k (m s).1 (m s).2 = _
    rw [h]
  exact ⟨heq ▸ hk.writes, heq ▸ hk.stays, heq ▸ hk.post⟩

theorem weaken (hm : Own id m s Q) (h : ∀ a f, Q a f → Q' a f) : Own id m s Q' :=
  { hm with post := fun he => h _ _ (hm.post he) }

theorem pure {a : α} (h : Q a (s.analysis.facts id)) : Own id (Pure.pure a) s Q :=
  ⟨Writes.refl _ _, fun _ => Stays.refl _, fun _ => h⟩

/-- After an error nothing has to hold. -/
theorem report {Q : Unit → NodeFacts → Prop} (pos : Pos) {problem : Problem}
    (h : problem.severity = .error) : Own id (Check.report pos problem) s Q := by
  have herror : ¬ (Check.report pos problem s).2.NoErrors :=
    fun he => he ⟨problem, pos⟩ (.head _) h
  exact ⟨Writes.report _ _ _, fun he => absurd he herror, fun he => absurd he herror⟩

theorem fail {Q : Option α → NodeFacts → Prop} (pos : Pos) {problem : Problem}
    (h : problem.severity = .error) : Own id (Check.fail pos problem) s Q :=
  (Own.report (Q := fun _ _ => False) pos h).bind fun _ => Own.pure fun h => h.elim

theorem afterReport {m : Check β} (pos : Pos) {problem : Problem} (h : problem.severity = .error)
    (hm : ∀ s', Own id m s' fun _ _ => True) : Own id (Check.report pos problem >>= fun _ => m) s R :=
  (Own.report (Q := fun _ _ => False) pos h).bind fun _ =>
    (hm _).weaken fun _ _ _ h => h.elim

theorem record {Q : Unit → NodeFacts → Prop} {g : Analysis → Analysis}
    (hfacts : ∀ a other, other ≠ id → (g a).facts other = a.facts other)
    (hvars : ∀ a, (g a).vars = a.vars ∧ (g a).globals = a.globals ∧
      (g a).functions = a.functions ∧ (g a).structs = a.structs ∧ (g a).definitions = a.definitions ∧
      (g a).entry = a.entry) (h : Q () ((g s.analysis).facts id)) : Own id (Check.record g) s Q := by
  obtain ⟨hv, hg, hf, hs, hd, he⟩ := hvars s.analysis
  refine ⟨⟨?_, ?_, ?_, hf, hs, hd, he, List.suffix_refl _, rfl, fun h => h, ?_⟩,
    fun _ => ⟨rfl, rfl, hv, hg, fun hok => ⟨fun var info hvar => hok.1 var info (hv ▸ hvar), hok.2⟩, rfl⟩,
    fun _ => h⟩
  · intro other ho
    exact hfacts _ other (by simpa using ho)
  · intro var info hvar
    show (g s.analysis).vars[var]? = some info
    rw [hv, hvar]
  · intro var hvar
    show var ∈ (g s.analysis).globals
    rw [hg]
    exact hvar
  · intro hi
    refine ⟨fun var hvar => ?_, fun p hp => ?_, fun var hvar => ?_⟩
    · show var < (g s.analysis).vars.size
      rw [hv]
      exact hi.visible var hvar
    · show p.2 < (g s.analysis).vars.size ∧ p.2 ∈ (g s.analysis).globals
      rw [hv, hg]
      exact hi.globals p hp
    · show var < (g s.analysis).vars.size
      rw [hv]
      exact hi.known var (hg ▸ hvar)

theorem sound (h : Own id m s Q) : Sound [id] m s fun r s' final => Stays s s' ∧ Q r (final.facts id) :=
  ⟨h.writes, fun _ he hs => ⟨h.stays he, hs.facts id (List.mem_singleton_self _) ▸ h.post he⟩⟩

end Own

/-! ## Tables -/

theorem own_fold (e : Expr) (value : Value) (s : CheckState) :
    Own e.id (fold e value) s fun _ f => f = { s.analysis.facts e.id with value := some value } := by
  have keep : Own e.id (record fun a => { a with consts := a.consts.insert e.id value }) s
      fun _ f => f = { s.analysis.facts e.id with value := some value } := by
    refine .record (fun a other h => ?_) (fun _ => ⟨rfl, rfl, rfl, rfl, rfl, rfl⟩) ?_
    · simp [Analysis.facts, NodeTable.get?_insert_ne _ _ h]
    · simp [Analysis.facts]
  unfold fold
  cases value with
  | string bytes =>
    dsimp only
    split
    · exact .report _ rfl
    · exact keep
  | int _ | float _ | object _ | vector _ _ _ => exact keep

theorem own_recordRef (id : NodeId) (var : VarId) (s : CheckState) :
    Own id (record fun a => { a with refs := a.refs.insert id var }) s
      fun _ f => f = { s.analysis.facts id with ref := some var } := by
  refine .record (fun a other h => ?_) (fun _ => ⟨rfl, rfl, rfl, rfl, rfl, rfl⟩) ?_
  · simp [Analysis.facts, NodeTable.get?_insert_ne _ _ h]
  · simp [Analysis.facts]

theorem own_recordCall (id : NodeId) (callee : Callee) (s : CheckState) :
    Own id (record fun a => { a with calls := a.calls.insert id callee }) s
      fun _ f => f = { s.analysis.facts id with call := some callee } := by
  refine .record (fun a other h => ?_) (fun _ => ⟨rfl, rfl, rfl, rfl, rfl, rfl⟩) ?_
  · simp [Analysis.facts, NodeTable.get?_insert_ne _ _ h]
  · simp [Analysis.facts]

theorem own_typed {e : Expr} {m : Check (Option Ty)} {s : CheckState}
    {Q : Option Ty → NodeFacts → Prop} (hm : Own e.id m s Q) :
    Own e.id (typed e m) s fun r f => ∃ f', Q r f' ∧ f = { f' with type := r.or f'.type } := by
  refine hm.bind fun _ => ?_
  split
  · next type hr =>
    have hrecord : Own e.id (record fun a => { a with types := a.types.insert e.id type }) (m s).2
        fun _ f => f = { (m s).2.analysis.facts e.id with type } := by
      refine .record (fun a other h => ?_) (fun _ => ⟨rfl, rfl, rfl, rfl, rfl, rfl⟩) ?_
      · simp [Analysis.facts, NodeTable.get?_insert_ne _ _ h]
      · simp [Analysis.facts]
    refine hrecord.bind fun _ => .pure fun hf hq => ?_
    exact ⟨_, hr ▸ hq, hf⟩
  · next hr => exact .pure fun hq => ⟨_, hr ▸ hq, rfl⟩

/-! ## Operators and names -/

def DividesOk (a : Analysis) (op : BinOp) (divisor : Expr) : Prop :=
  op.divides = true → ∀ v, a.valueOf divisor = some v → v.isZero = false

theorem own_dividesByZero {id : NodeId} {op : BinOp} {divisor : Expr} {k : Bool → Check β}
    {s : CheckState} {R : β → NodeFacts → Prop}
    (hno : DividesOk s.analysis op divisor → Own id (k false) s R)
    (hyes : ∀ s', Own id (k true) s' fun _ _ => True) : Own id (dividesByZero op divisor >>= k) s R := by
  by_cases hop : op.divides = true
  · cases hv : s.analysis.valueOf divisor with
    | none =>
      refine .read (by simp [dividesByZero, hop, hv]) (hno fun _ v h => ?_)
      cases hv.symm.trans h
    | some value =>
      cases hz : value.isZero with
      | true =>
        have heq : dividesByZero op divisor s = (do report divisor.pos .divisionByZero; return true) s := by
          simp [dividesByZero, hop, hv, hz]
          rfl
        refine Own.bind (Q := fun _ _ => False) ?_ fun _ => ?_
        · have h : Own id (do report divisor.pos .divisionByZero; return true) s fun _ _ => False :=
            .afterReport _ rfl fun s' => .pure trivial
          exact ⟨heq ▸ h.writes, heq ▸ h.stays, heq ▸ h.post⟩
        · rw [heq]
          exact (hyes _).weaken fun _ _ _ h => h.elim
      | false =>
        refine .read (by simp [dividesByZero, hop, hv, hz]) (hno fun _ v h => ?_)
        rwa [← Option.some.inj (hv.symm.trans h)]
  · exact .read (by simp [dividesByZero, hop]) (hno fun h => absurd h hop)

theorem own_foldOperands (e : Expr) (op : BinOp) (lhs rhs : Expr) (s : CheckState)
    (hfresh : (s.analysis.facts e.id).value = none) :
    Own e.id (foldOperands e op lhs rhs) s fun _ f =>
      f = { s.analysis.facts e.id with
        value := foldedBinary op (s.analysis.valueOf lhs) (s.analysis.valueOf rhs) } := by
  have unchanged : s.analysis.facts e.id = { s.analysis.facts e.id with value := none } := by
    rw [← hfresh]
  refine .read (constOf_apply _ s) (.read (constOf_apply _ s) ?_)
  cases hl : s.analysis.valueOf lhs with
  | none => exact .pure unchanged
  | some a =>
    cases hr : s.analysis.valueOf rhs with
    | none => exact .pure unchanged
    | some b =>
      dsimp only
      cases hf : foldBinary op a b with
      | ok value =>
        refine (own_fold e value s).weaken fun _ f hv => ?_
        simp [hv, foldedBinary, hf, Except.toOption]
      | error fault =>
        refine .pure ?_
        simpa [foldedBinary, hf, Except.toOption] using unchanged

theorem own_checkBinary (e : Expr) (op : BinOp) (lhs rhs : Expr) (left right : Ty) (s : CheckState)
    (hfresh : (s.analysis.facts e.id).value = none) :
    Own e.id (checkBinary e op lhs rhs left right) s fun r f => ∃ type, r = some type ∧
      binaryType? op left right = some type ∧ DividesOk s.analysis op rhs ∧ f = { s.analysis.facts e.id with
        value := foldedBinary op (s.analysis.valueOf lhs) (s.analysis.valueOf rhs) } := by
  unfold checkBinary
  cases htype : binaryType? op left right with
  | none => exact .fail _ rfl
  | some type =>
    refine own_dividesByZero (fun hdivides => ?_) fun s' => .pure trivial
    refine (own_foldOperands e op lhs rhs s hfresh).bind fun _ => .pure fun hf => ?_
    exact ⟨type, rfl, rfl, hdivides, hf⟩

theorem own_checkUnary (e : Expr) (op : UnOp) (operand : Expr) (type : Ty) (s : CheckState)
    (hfresh : (s.analysis.facts e.id).value = none) :
    Own e.id (checkUnary e op operand type) s fun r f => r = some type ∧
      unaryApplies op type = true ∧ f = { s.analysis.facts e.id with
        value := foldedUnary op (s.analysis.valueOf operand) } := by
  have unchanged : s.analysis.facts e.id = { s.analysis.facts e.id with value := none } := by
    rw [← hfresh]
  unfold checkUnary
  split
  · exact .fail _ rfl
  · next happlies =>
    have happlies : unaryApplies op type = true := by simpa using happlies
    refine .read (constOf_apply _ s) ?_
    cases ho : s.analysis.valueOf operand with
    | none => exact .pure ⟨rfl, happlies, unchanged⟩
    | some a =>
      dsimp only
      cases hf : foldUnary op a with
      | ok value =>
        refine (own_fold e value s).bind fun _ => .pure fun hv => ⟨rfl, happlies, ?_⟩
        simp [hv, foldedUnary, hf, Except.toOption]
      | error fault =>
        refine .pure ⟨rfl, happlies, ?_⟩
        simpa [foldedUnary, hf, Except.toOption] using unchanged

theorem own_stop {id : NodeId} {s : CheckState} {Q : Unit → NodeFacts → Prop}
    (hnever : s.NoErrors → ¬ s.VarsOk) (h : Q () (s.analysis.facts id)) : Own id stop s Q where
  writes := ⟨fun _ _ => rfl, fun _ _ h => h, fun _ h => h, rfl, rfl, rfl, rfl, List.suffix_refl _, rfl,
    fun h => h, fun hi => ⟨hi.visible, hi.globals, hi.known⟩⟩
  stays he := ⟨rfl, rfl, rfl, rfl, fun hok => absurd hok (hnever he), rfl⟩
  post _ := h

theorem own_checkField (e base : Expr) (type : Ty) (name : String) (s : CheckState)
    (hfresh : (s.analysis.facts e.id).value = none)
    (htyped : s.NoErrors → s.VarsOk → ∀ v, s.analysis.valueOf base = some v → v.type = type) :
    Own e.id (checkField e base type name) s fun r f => ∃ offset fieldType,
      s.analysis.structs.field? type name = some (offset, fieldType) ∧ r = some fieldType ∧
      f = { s.analysis.facts e.id with value := foldedField offset (s.analysis.valueOf base) } := by
  have unchanged : s.analysis.facts e.id = { s.analysis.facts e.id with value := none } := by
    rw [← hfresh]
  refine .read (m := analysis) rfl ?_
  cases hfield : s.analysis.structs.field? type name with
  | none =>
    dsimp only
    split
    · exact .fail _ rfl
    · exact .fail _ rfl
    · exact .fail _ rfl
  | some found =>
    obtain ⟨offset, fieldType⟩ := found
    refine .read (constOf_apply _ s) ?_
    split
    · next x y z hv =>
      cases hcomponent : vectorComponent? x y z offset with
      | some component =>
        refine (own_fold e _ s).bind fun _ => .pure fun hf => ⟨offset, fieldType, rfl, rfl, ?_⟩
        rw [hf, hv, foldedField, hcomponent, Option.map_some]
      | none =>
        refine Own.bind (Q := fun _ f => f = s.analysis.facts e.id) (own_stop (fun he hok => ?_) rfl)
          fun _ => .pure fun hf => ⟨offset, fieldType, rfl, rfl, ?_⟩
        · obtain rfl := htyped he hok _ hv
          obtain ⟨-, component, hsome⟩ := StructTable.component_of_field? hfield x y z
          cases hcomponent.symm.trans hsome
        · rw [hf, hv, foldedField, hcomponent, Option.map_none]
          exact unchanged
    · next hv =>
      refine .pure ⟨offset, fieldType, rfl, rfl, ?_⟩
      rw [foldedField]
      · exact unchanged
      · exact fun x y z h => hv x y z h

theorem own_checkConditional (e cond yes no : Expr) (condType yesType noType : Ty) (s : CheckState)
    (hfresh : (s.analysis.facts e.id).value = none) :
    Own e.id (checkConditional e cond yes no condType yesType noType) s fun r f =>
      condType = .int ∧ noType = yesType ∧ r = some yesType ∧ f = { s.analysis.facts e.id with
        value := foldedChoice (s.analysis.valueOf cond) (s.analysis.valueOf yes)
          (s.analysis.valueOf no) } := by
  have unchanged : s.analysis.facts e.id = { s.analysis.facts e.id with value := none } := by
    rw [← hfresh]
  unfold checkConditional
  split
  · exact .fail _ rfl
  · next hcond =>
    have hcond : condType = .int := not_not.mp hcond
    split
    · exact .fail _ rfl
    · next htypes =>
      have htypes : noType = yesType := (not_not.mp htypes).symm
      refine .read (constOf_apply _ s) ?_
      split
      · next n hn =>
        refine .read (constOf_apply _ s) ?_
        have hchosen : s.analysis.valueOf (if n != 0 then yes else no) =
            foldedChoice (s.analysis.valueOf cond) (s.analysis.valueOf yes)
              (s.analysis.valueOf no) := by
          rw [hn, foldedChoice]
          split <;> rfl
        rw [hchosen]
        cases hv : foldedChoice (s.analysis.valueOf cond) (s.analysis.valueOf yes)
            (s.analysis.valueOf no) with
        | none => exact .pure ⟨hcond, htypes, rfl, unchanged⟩
        | some value =>
          exact (own_fold e value s).bind fun _ => .pure fun hf => ⟨hcond, htypes, rfl, hf⟩
      · next hn =>
        refine .pure ⟨hcond, htypes, rfl, ?_⟩
        rw [foldedChoice]
        · exact unchanged
        · exact fun n h => hn n h

def AssignOk (target actual : Ty) : Option BinOp → Prop
  | none => actual = target
  | some op => binaryType? op target actual = some target

theorem own_checkAssign (e : Expr) (op : Option BinOp) (value : Expr) (target actual : Ty)
    (s : CheckState) : Own e.id (checkAssign e op value target actual) s fun r f => r = some target ∧
      AssignOk target actual op ∧ f = s.analysis.facts e.id := by
  unfold checkAssign
  cases op with
  | none =>
    dsimp only
    split
    · next h => exact .pure ⟨rfl, h.symm, rfl⟩
    · exact .fail _ rfl
  | some op =>
    dsimp only
    split
    · next h => exact own_dividesByZero (fun _ => .pure ⟨rfl, h, rfl⟩) fun s' => .pure trivial
    · exact .fail _ rfl

theorem own_checkStep (id : NodeId) (target : Expr) (type : Ty) (s : CheckState) :
    Own id (checkStep target type) s fun r f => target.isIdent = true ∧ type = .int ∧
      r = some .int ∧ f = s.analysis.facts id := by
  unfold checkStep
  split
  · exact .fail _ rfl
  · next hident =>
    split
    · exact .fail _ rfl
    · next htype => exact .pure ⟨by simpa using hident, not_not.mp htype, rfl, rfl⟩

theorem lookup_inScope {s : CheckState} (hinv : s.Inv) {name : String} {var : VarId}
    (h : s.resolve name = some var) :
    var < s.analysis.vars.size ∧ (var ∈ s.visible ∨ var ∈ s.analysis.globals) := by
  rcases Option.or_eq_some_iff.mp h with h | ⟨_, h⟩
  · obtain ⟨scope, hscope, hvar⟩ := List.exists_of_findSome?_eq_some h
    have hmem : var ∈ s.visible :=
      List.mem_flatMap.mpr ⟨scope, hscope, List.mem_map.mpr ⟨_, mem_of_lookup hvar, rfl⟩⟩
    exact ⟨hinv.visible var hmem, .inl hmem⟩
  · have hvar := hinv.globals _ (mem_of_lookup h)
    exact ⟨hvar.1, .inr hvar.2⟩

theorem own_checkIdent (engine : EngineTable) (e : Expr) (name : String) (s : CheckState)
    (hinv : s.Inv) (hfresh : s.analysis.facts e.id = {}) :
    Own e.id (checkIdent engine e name) s fun r f => f.ref = s.resolve name ∧
      ((∃ var info, (var ∈ s.visible ∨ var ∈ s.analysis.globals) ∧ s.analysis.vars[var]? = some info ∧
        r = some info.type ∧ f = { ref := some var, value := info.value }) ∨
      (∃ value, engine.constant? name = some value ∧ r = some value.type ∧
        f = { value := some value })) := by
  refine .read (a := s.resolve name) rfl ?_
  cases hlookup : s.resolve name with
  | some var =>
    obtain ⟨hlt, hscope⟩ := lookup_inScope hinv hlookup
    refine (own_recordRef e.id var s).bind fun _ => .read (m := analysis) rfl ?_
    split
    · next info hrecorded =>
      -- recording a reference leaves the variables
      have hinfo : s.analysis.vars[var]? = some info := hrecorded
      split
      · next value hvalue =>
        refine (own_fold e value _).bind fun _ => .pure fun hf href => ?_
        rw [hf, href, hfresh]
        exact ⟨rfl, .inl ⟨var, info, hscope, hinfo, rfl, by rw [hvalue]⟩⟩
      · next hvalue =>
        refine .pure fun href => ?_
        rw [href, hfresh]
        exact ⟨rfl, .inl ⟨var, info, hscope, hinfo, rfl, by rw [hvalue]⟩⟩
    · next hrecorded =>
      have hnone : s.analysis.vars[var]? = none := hrecorded
      rw [Array.getElem?_eq_getElem hlt] at hnone
      cases hnone
  | none =>
    dsimp only
    cases hconst : engine.constant? name with
    | some value =>
      refine (own_fold e value s).bind fun _ => .pure fun hf => ?_
      rw [hf, hfresh]
      exact ⟨rfl, .inr ⟨value, rfl, rfl, rfl⟩⟩
    | none => exact .fail _ rfl

/-! ## Calls -/

def ArgTypesOk : List (Expr × Option Ty) → List (Ty × Bool) → Prop
  | (arg, type) :: args, (param, _) :: params =>
    (if param = .action then arg.isCall = true else ∀ t, type = some t → t = param) ∧
      ArgTypesOk args params
  | _, _ => True

theorem own_checkArgTypes (id : NodeId) (name : String) (args : List (Expr × Option Ty))
    (params : List (Ty × Bool)) (s : CheckState) : Own id (checkArgTypes name args params) s fun _ f =>
      ArgTypesOk args params ∧ f = s.analysis.facts id := by
  induction args generalizing params s with
  | nil => exact .pure ⟨trivial, rfl⟩
  | cons arg args ih =>
    cases params with
    | nil => exact .pure ⟨trivial, rfl⟩
    | cons param params =>
      obtain ⟨arg, type⟩ := arg
      obtain ⟨param, hasDefault⟩ := param
      have hrest (s' : CheckState) : Own id (checkArgTypes name args params) s' fun _ _ => True :=
        (ih params s').weaken fun _ _ _ => trivial
      simp only [checkArgTypes]
      by_cases hparam : param = .action
      · rw [if_pos hparam]
        split
        · exact .afterReport _ rfl hrest
        · next hcall =>
          refine (ih params s).weaken fun _ f h => ⟨⟨?_, h.1⟩, h.2⟩
          rw [if_pos hparam]
          simpa using hcall
      · rw [if_neg hparam]
        cases type with
        | none =>
          refine (ih params s).weaken fun _ f h => ⟨⟨?_, h.1⟩, h.2⟩
          rw [if_neg hparam]
          exact fun t ht => nomatch ht
        | some type =>
          dsimp only
          split
          · exact .afterReport _ rfl hrest
          · next htype =>
            refine (ih params s).weaken fun _ f h => ⟨⟨?_, h.1⟩, h.2⟩
            rw [if_neg hparam]
            rintro t ⟨⟩
            exact not_not.mp htype

def TargetOk (engine : EngineTable) (a : Analysis) (name : String) (target : CallTarget) : Prop :=
  (∃ (func : FuncId) (f : FuncInfo), a.functions[func]? = some f ∧ f.defined = true ∧
    target = .ofUser func f) ∨
  ∃ f, engine.function? name = some f ∧ target = .ofEngine f

theorem own_callTarget (engine : EngineTable) (e : Expr) (name : String) (id : NodeId)
    (s : CheckState) : Own id (callTarget engine e name) s fun r f => f = s.analysis.facts id ∧
      ∃ target, r = some target ∧ TargetOk engine s.analysis name target := by
  refine .read (m := analysis) rfl ?_
  cases hfunc : s.analysis.function? name with
  | some func =>
    obtain ⟨hlt, _⟩ := Array.findIdx?_eq_some_iff_getElem.mp hfunc
    have hget : s.analysis.functions[func]? = some s.analysis.functions[func] :=
      Array.getElem?_eq_getElem hlt
    dsimp only
    rw [hget]
    dsimp only
    split
    · exact .afterReport _ rfl fun s' => .pure trivial
    · next hdefined =>
      refine .pure ⟨rfl, _, rfl, .inl ⟨func, _, hget, by simpa using hdefined, rfl⟩⟩
  | none =>
    dsimp only
    cases hengine : engine.function? name with
    | some f => exact .pure ⟨rfl, _, rfl, .inr ⟨f, hengine, rfl⟩⟩
    | none => exact .fail _ rfl

theorem own_checkCall (engine : EngineTable) (e : Expr) (name : String)
    (args : List (Expr × Option Ty)) (s : CheckState) :
    Own e.id (checkCall engine e name args) s fun r f => ∃ target,
      TargetOk engine s.analysis name target ∧ target.required ≤ args.length ∧
      args.length ≤ target.params.length ∧ ArgTypesOk args target.params ∧ r = some target.ret ∧
      f = { s.analysis.facts e.id with call := some target.callee } := by
  refine (own_callTarget engine e name e.id s).bind fun _ => ?_
  generalize hs1 : (callTarget engine e name s).2 = s1
  cases htarget : (callTarget engine e name s).1 with
  | none => exact .pure fun h => by simp at h
  | some target =>
    have hrest (s' : CheckState) : Own e.id (do
        checkArgTypes name args target.params
        record fun a => { a with calls := a.calls.insert e.id target.callee }
        return some target.ret) s' fun r f => ArgTypesOk args target.params ∧
          r = some target.ret ∧ f = { s'.analysis.facts e.id with call := some target.callee } := by
      refine (own_checkArgTypes e.id name args target.params s').bind fun _ => ?_
      refine (own_recordCall e.id target.callee _).bind fun _ => .pure fun hf h => ?_
      exact ⟨h.1, rfl, by rw [hf, h.2]⟩
    dsimp only
    split
    · exact .afterReport _ rfl fun s' => (hrest s').weaken fun _ _ _ => trivial
    · next harity =>
      simp only [Bool.or_eq_true, decide_eq_true_eq, not_or, Nat.not_lt] at harity
      refine (hrest s1).weaken fun r f h hcall => ?_
      obtain ⟨hfacts, _, ⟨⟩, hok⟩ := hcall
      exact ⟨target, hok, harity.1, harity.2, h.1, h.2.1, by rw [h.2.2, hfacts]⟩

end Check
end Nwscript
