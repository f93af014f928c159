import Mathlib
import Nwscript.Proofs.Typing.Rules

/-! # Steps of a check

A step of a check writes about some nodes only, and what it reports stays reported. So what it found
out about its nodes still holds in the tables at the end, if no other step writes about them. -/

open List

namespace Nwscript

theorem mem_of_lookup {α β : Type} [BEq α] [LawfulBEq α] {l : List (α × β)} {k : α} {b : β}
    (h : l.lookup k = some b) : (k, b) ∈ l := by
  obtain ⟨l₁, l₂, rfl, _⟩ := lookup_eq_some_iff.mp h
  simp

/-! ## What is known about a node -/

structure NodeFacts where
  type : Option Ty := none
  value : Option Value := none
  ref : Option VarId := none
  decl : Option VarId := none
  call : Option Callee := none

namespace Analysis

def facts (a : Analysis) (id : NodeId) : NodeFacts :=
  ⟨a.types.get? id, a.consts.get? id, a.refs.get? id, a.decls.get? id, a.calls.get? id⟩

structure Settled (a final : Analysis) (ids : List NodeId) : Prop where
  facts : ∀ id ∈ ids, final.facts id = a.facts id
  vars : ∀ (var : VarId) info, a.vars[var]? = some info → final.vars[var]? = some info
  globals : a.globals ⊆ final.globals
  functions : final.functions = a.functions
  structs : final.structs = a.structs
  definitions : final.definitions = a.definitions

namespace Settled

variable {a final : Analysis} {ids : List NodeId}

theorem refl (a : Analysis) (ids : List NodeId) : Settled a a ids :=
  ⟨fun _ _ => rfl, fun _ _ h => h, fun _ h => h, rfl, rfl, rfl⟩

theorem subset {ids' : List NodeId} (h : Settled a final ids) (hs : ids' ⊆ ids) :
    Settled a final ids' :=
  { h with facts := fun id hid => h.facts id (hs hid) }

theorem consts (h : Settled a final ids) {id : NodeId} (hid : id ∈ ids) :
    final.consts.get? id = a.consts.get? id := congrArg NodeFacts.value (h.facts id hid)

theorem refs (h : Settled a final ids) {id : NodeId} (hid : id ∈ ids) :
    final.refs.get? id = a.refs.get? id := congrArg NodeFacts.ref (h.facts id hid)

end Settled
end Analysis

/-! ## Steps -/

namespace CheckState

def NoErrors (s : CheckState) : Prop := ∀ f ∈ s.findings, f.problem.severity ≠ .error

def Fresh (s : CheckState) (ids : List NodeId) : Prop := ∀ id ∈ ids, s.analysis.facts id = {}

def visible (s : CheckState) : List VarId := s.scopes.scopes.flatMap fun scope => scope.map Prod.snd

structure Inv (s : CheckState) : Prop where
  visible : ∀ var ∈ s.visible, var < s.analysis.vars.size
  globals : ∀ p ∈ s.globals, p.2 < s.analysis.vars.size ∧ p.2 ∈ s.analysis.globals
  known : ∀ var ∈ s.analysis.globals, var < s.analysis.vars.size

/-- A step that writes about the nodes `ids` only. Of the scopes it changes the innermost only. -/
structure Writes (ids : List NodeId) (s s' : CheckState) : Prop where
  facts : ∀ id, id ∉ ids → s'.analysis.facts id = s.analysis.facts id
  vars : ∀ (var : VarId) info, s.analysis.vars[var]? = some info → s'.analysis.vars[var]? = some info
  globals : s.analysis.globals ⊆ s'.analysis.globals
  functions : s'.analysis.functions = s.analysis.functions
  structs : s'.analysis.structs = s.analysis.structs
  definitions : s'.analysis.definitions = s.analysis.definitions
  entry : s'.analysis.entry = s.analysis.entry
  findings : s.findings <:+ s'.findings
  outer : s'.scopes.scopes.tail = s.scopes.scopes.tail
  isOpen : s.scopes.scopes ≠ [] → s'.scopes.scopes ≠ []
  inv : s.Inv → s'.Inv

namespace Writes

variable {ids ids' : List NodeId} {s s' s'' : CheckState}

theorem refl (ids : List NodeId) (s : CheckState) : Writes ids s s :=
  ⟨fun _ _ => rfl, fun _ _ h => h, fun _ h => h, rfl, rfl, rfl, rfl, suffix_refl _, rfl, id,
    id⟩

theorem report (ids : List NodeId) (s : CheckState) (f : Finding) :
    Writes ids s { s with findings := f :: s.findings } :=
  ⟨fun _ _ => rfl, fun _ _ h => h, fun _ h => h, rfl, rfl, rfl, rfl, suffix_cons _ _, rfl, id,
    fun h => ⟨h.visible, h.globals, h.known⟩⟩

theorem trans (h : Writes ids s s') (h' : Writes ids' s' s'') : Writes (ids ++ ids') s s'' where
  facts id hid := by
    rw [mem_append, not_or] at hid
    rw [h'.facts id hid.2, h.facts id hid.1]
  vars var info hv := h'.vars var info (h.vars var info hv)
  globals := List.Subset.trans h.globals h'.globals
  functions := h'.functions.trans h.functions
  structs := h'.structs.trans h.structs
  definitions := h'.definitions.trans h.definitions
  entry := h'.entry.trans h.entry
  findings := h.findings.trans h'.findings
  outer := h'.outer.trans h.outer
  isOpen hs := h'.isOpen (h.isOpen hs)
  inv hi := h'.inv (h.inv hi)

theorem subset (h : Writes ids s s') (hs : ids ⊆ ids') : Writes ids' s s' :=
  { h with facts := fun id hid => h.facts id fun hm => hid (hs hm) }

theorem noErrors (h : Writes ids s s') (hs : s'.NoErrors) : s.NoErrors :=
  fun f hf => hs f (h.findings.subset hf)

theorem fresh (h : Writes ids s s') (hf : s.Fresh ids') (hd : ids.Disjoint ids') : s'.Fresh ids' :=
  fun id hid => (h.facts id fun hm => hd hm hid).trans (hf id hid)

theorem settled {final : Analysis} (h : Writes ids s s') (hs : s'.analysis.Settled final ids')
    (hd : ids.Disjoint ids') : s.analysis.Settled final ids' where
  facts id hid := (hs.facts id hid).trans (h.facts id fun hm => hd hm hid)
  vars var info hv := hs.vars var info (h.vars var info hv)
  globals := List.Subset.trans h.globals hs.globals
  functions := hs.functions.trans h.functions
  structs := hs.structs.trans h.structs
  definitions := hs.definitions.trans h.definitions

end Writes

def resolve (s : CheckState) (name : String) : Option VarId :=
  (s.scopes.lookup? name).or (s.globals.lookup name)

def VarsOk (s : CheckState) : Prop := s.analysis.VarsOk ∧ s.stuck = false

structure Stays (s s' : CheckState) : Prop where
  scopes : s'.scopes = s.scopes
  names : s'.globals = s.globals
  vars : s'.analysis.vars = s.analysis.vars
  globals : s'.analysis.globals = s.analysis.globals
  varsOk : s.VarsOk → s'.VarsOk
  findings : s'.findings = s.findings

namespace Stays

variable {s s' s'' : CheckState}

theorem refl (s : CheckState) : Stays s s := ⟨rfl, rfl, rfl, rfl, id, rfl⟩

theorem trans (h : Stays s s') (h' : Stays s' s'') : Stays s s'' :=
  ⟨h'.scopes.trans h.scopes, h'.names.trans h.names, h'.vars.trans h.vars,
    h'.globals.trans h.globals, fun hs => h'.varsOk (h.varsOk hs), h'.findings.trans h.findings⟩

theorem resolve (h : Stays s s') (name : String) : s'.resolve name = s.resolve name := by
  rw [CheckState.resolve, CheckState.resolve, h.scopes, h.names]

theorem visible (h : Stays s s') : s'.visible = s.visible := by
  rw [CheckState.visible, CheckState.visible, h.scopes]

end Stays
end CheckState

/-! ## Soundness of a check -/

namespace Check

open CheckState

variable {α β : Type}

@[simp] theorem bind_apply (m : Check α) (k : α → Check β) (s : CheckState) :
    (m >>= k) s = k (m s).1 (m s).2 := rfl

@[simp] theorem pure_apply (a : α) (s : CheckState) : (pure a : Check α) s = (a, s) := rfl

@[simp] theorem analysis_apply (s : CheckState) : analysis s = (s.analysis, s) := rfl

@[simp] theorem constOf_apply (e : Expr) (s : CheckState) :
    constOf e s = (s.analysis.valueOf e, s) := rfl

/-- A check writes about the nodes `ids` only, and if nothing is reported, then `P` holds of every
later analysis that says the same about them. -/
structure Sound (ids : List NodeId) (m : Check α) (s : CheckState)
    (P : α → CheckState → Analysis → Prop) : Prop where
  writes : Writes ids s (m s).2
  sound : ∀ final, (m s).2.NoErrors → (m s).2.analysis.Settled final ids → P (m s).1 (m s).2 final

namespace Sound

variable {ids ids' : List NodeId} {m : Check α} {k : α → Check β} {s : CheckState}
  {P Q : α → CheckState → Analysis → Prop} {R : β → CheckState → Analysis → Prop}

/-- One check after the other. The second may use what the first has found out. -/
theorem bind (hm : Sound ids m s P) (hd : ids.Disjoint ids')
    (hk : ∀ a s1, m s = (a, s1) → Writes ids s s1 → Sound ids' (k a) s1 fun b s2 final =>
      s1.NoErrors → P a s1 final → s1.analysis.Settled final ids → R b s2 final) :
    Sound (ids ++ ids') (m >>= k) s R := by
  have hk := hk (m s).1 (m s).2 rfl hm.writes
  refine ⟨hm.writes.trans hk.writes, fun final he hs => ?_⟩
  have he1 : (m s).2.NoErrors := hk.writes.noErrors he
  have hs1 : (m s).2.analysis.Settled final ids :=
    hk.writes.settled (hs.subset (subset_append_left _ _)) fun _ h h' => hd h' h
  exact hk.sound final he (hs.subset (subset_append_right _ _)) he1 (hm.sound final he1 hs1) hs1

theorem bindLast (hm : Sound ids m s P)
    (hk : ∀ a s1, m s = (a, s1) → Writes ids s s1 → Sound [] (k a) s1 fun b s2 final =>
      s1.NoErrors → P a s1 final → s1.analysis.Settled final ids → R b s2 final) :
    Sound ids (m >>= k) s R := by
  have h := hm.bind (disjoint_nil_right ids) hk
  rwa [append_nil] at h

theorem read {a : α} (h : m s = (a, s)) (hk : Sound ids (k a) s R) : Sound ids (m >>= k) s R := by
  have heq : (m >>= k) s = k a s := by
    show k (m s).1 (m s).2 = _
    rw [h]
  exact ⟨heq ▸ hk.writes, heq ▸ hk.sound⟩

theorem weaken (hm : Sound ids m s P)
    (h : ∀ a s' final, (a, s') = m s → s'.NoErrors → s'.analysis.Settled final ids → P a s' final →
      Q a s' final) : Sound ids m s Q :=
  ⟨hm.writes, fun final he hs => h _ _ final rfl he hs (hm.sound final he hs)⟩

/-- What holds of every later analysis holds of the one behind the check too. -/
theorem now (hm : Sound ids m s P) : Sound ids m s fun a s' final => P a s' final ∧ P a s' s'.analysis :=
  ⟨hm.writes, fun final he hs => ⟨hm.sound final he hs, hm.sound _ he (.refl _ ids)⟩⟩

theorem mono (hm : Sound ids m s P) (hs : ids ⊆ ids') : Sound ids' m s P :=
  ⟨hm.writes.subset hs, fun final he hsettled => hm.sound final he (hsettled.subset hs)⟩

theorem perm (hm : Sound ids m s P) (hp : ids.Perm ids') : Sound ids' m s P := hm.mono hp.subset

theorem pure {a : α} (h : ∀ final, s.NoErrors → s.analysis.Settled final ids → P a s final) :
    Sound ids (Pure.pure a) s P :=
  ⟨Writes.refl _ _, h⟩

theorem report {P : Unit → CheckState → Analysis → Prop} (pos : Pos) {problem : Problem}
    (h : problem.severity = .error) : Sound ids (Check.report pos problem) s P :=
  ⟨Writes.report _ _ _, fun _ he _ => absurd h (he ⟨problem, pos⟩ (.head _))⟩

theorem fail {P : Option α → CheckState → Analysis → Prop} (pos : Pos) {problem : Problem}
    (h : problem.severity = .error) : Sound ids (Check.fail pos problem) s P :=
  ⟨Writes.report _ _ _, fun _ he _ => absurd h (he ⟨problem, pos⟩ (.head _))⟩

theorem afterReport {m : Check β} (pos : Pos) {problem : Problem} (h : problem.severity = .error)
    (hm : ∀ s', Writes ids s' (m s').2) : Sound ids (Check.report pos problem >>= fun _ => m) s R := by
  have hreport : Sound [] (Check.report pos problem) s fun _ _ _ => False := .report pos h
  exact hreport.bind (disjoint_nil_left ids) fun _ s1 _ _ => ⟨hm s1, fun _ _ _ _ h => h.elim⟩

end Sound
end Check
end Nwscript
