import Nwscript.Proofs.Control.Paths
import Nwscript.Proofs.Typing.Decl

/-! # Checked statements

The check of a statement finds out that the statement is in order where the local variables of the
moment are visible, or reports an error. Declarations apart, it leaves the scopes as they were. The
warnings are about the statements that control cannot reach. -/

open List Option

namespace Nwscript
namespace Check

open CheckState

/-! ## Parts that leave the scopes -/

/-- A part of a statement leaves the scopes as they were, warns of the statements `W`, and `Q` holds
with the variables that are visible. -/
def Keeps {α : Type} (s : CheckState) (W : Analysis → List Pos) (Q : List VarId → Analysis → Prop)
    (_ : α) (s' : CheckState) (final : Analysis) : Prop :=
  s'.scopes = s.scopes ∧ Introduces (W final) s s' ∧ Q s.visible final

def ChecksPart (ids : List NodeId) (m : Check Unit) (W : Analysis → List Pos)
    (Q : List VarId → Analysis → Prop) : Prop :=
  ∀ s : CheckState, s.Inv → s.scopes.scopes ≠ [] → s.Fresh ids → ids.Nodup →
    Sound ids m s (Keeps s W Q)

def silent (_ : Analysis) : List Pos := []

namespace ChecksPart

variable {ids ids' : List NodeId} {m k : Check Unit} {W W' : Analysis → List Pos}
  {Q R : List VarId → Analysis → Prop}

theorem seq (hm : ChecksPart ids m W Q) (hk : ChecksPart ids' k W' R) :
    ChecksPart (ids ++ ids') (m >>= fun _ => k) (fun final => W final ++ W' final)
      fun visible final => Q visible final ∧ R visible final := by
  intro s hinv hopen hfresh hnodup
  obtain ⟨hnodup1, hnodup2, hdisjoint⟩ := nodup_append'.mp hnodup
  have hfirst := hm s hinv hopen (fun id hid => hfresh id (mem_append_left _ hid)) hnodup1
  refine hfirst.bind hdisjoint fun _ s1 _ hw => ?_
  have hsecond := hk s1 (hw.inv hinv) (hw.isOpen hopen)
    (hw.fresh (fun id hid => hfresh id (mem_append_right _ hid)) hdisjoint) hnodup2
  refine hsecond.weaken ?_
  rintro - s2 final - - - ⟨hscopes2, hintro2, hR⟩ - ⟨hscopes1, hintro1, hQ⟩ -
  have hvisible : s1.visible = s.visible := by rw [visible, visible, hscopes1]
  exact ⟨hscopes2.trans hscopes1, hintro1.trans hintro2, hQ, hvisible ▸ hR⟩

theorem pure (h : ∀ visible final, Q visible final) : ChecksPart ids (Pure.pure ()) silent Q :=
  fun s _ _ _ _ => .pure fun final _ _ => ⟨rfl, .refl s, h _ final⟩

theorem report (pos : Pos) {problem : Problem} (h : problem.severity = .error) :
    ChecksPart ids (Check.report pos problem) W Q := fun _ _ _ _ _ => .report pos h

theorem weaken (hm : ChecksPart ids m W Q) (h : ∀ visible final, Q visible final → R visible final) :
    ChecksPart ids m W R := fun s hinv hopen hfresh hnodup =>
  (hm s hinv hopen hfresh hnodup).weaken fun _ _ _ _ _ _ hQ => ⟨hQ.1, hQ.2.1, h _ _ hQ.2.2⟩

theorem warns (hm : ChecksPart ids m W Q) (h : ∀ final, W final = W' final) :
    ChecksPart ids m W' Q := funext h ▸ hm

end ChecksPart

variable {s : CheckState} {ids : List NodeId} {engine : EngineTable} {ctx : BodyContext}
  {state : SequenceState} {st : Stmt} {final : Analysis} {ss : List Stmt} {labels : SwitchLabels}
  {visible : List VarId} {pos : Pos}

theorem sound_inScope {m : Check Unit} {P : Unit → CheckState → Analysis → Prop}
    (hm : Sound ids m { s with scopes := s.scopes.push } P) :
    Sound ids (inScope m) s fun r s' final => s'.scopes = s.scopes ∧
      ∃ s1 scopes, P r s1 final ∧ s' = { s1 with scopes } := by
  obtain ⟨hw, hsound⟩ := hm
  have hscopes : (m { s with scopes := s.scopes.push }).2.scopes.pop = s.scopes :=
    congrArg ScopeStack.mk hw.outer
  refine ⟨⟨hw.facts, hw.vars, hw.globals, hw.functions, hw.structs, hw.definitions, hw.entry, hw.findings,
    ?_, ?_, fun hi => ?_⟩, fun final he hs => ⟨hscopes, _, _, hsound final he hs, rfl⟩⟩
  · exact congrArg (fun scopes => scopes.scopes.tail) hscopes
  · exact fun h => by rwa [← hscopes] at h
  · have hinv := hw.inv ⟨hi.visible, hi.globals, hi.known⟩
    refine ⟨fun var hvar => ?_, hinv.globals, hinv.known⟩
    have hvar : var ∈ s.visible := by
      have h : var ∈ visible { s with scopes := (m { s with scopes := s.scopes.push }).2.scopes.pop } :=
        hvar
      rwa [hscopes] at h
    obtain ⟨hlt, _⟩ := Array.getElem?_eq_some_iff.mp
      (hw.vars var _ (Array.getElem?_eq_getElem (hi.visible var hvar)))
    exact hlt

/-! ## Expressions of statements -/

theorem checksPart_condition (engine : EngineTable) (cond : Expr) :
    ChecksPart cond.ids (checkCondition engine cond) silent fun visible final =>
      UsableAs engine final visible .int cond := by
  intro s hinv _ hfresh hnodup
  refine (checksExpr engine cond s hinv hfresh hnodup).bindLast fun r s1 _ _ => ?_
  cases r with
  | none => exact .pure fun _ _ _ _ ⟨_, _, h, _⟩ => by cases h
  | some type =>
    dsimp only
    split
    · exact .report _ rfl
    · next h =>
      obtain rfl : type = .int := Decidable.not_not.mp h
      refine .pure ?_
      rintro final - - - ⟨hstays, _, ⟨⟩, hok⟩ -
      exact ⟨hstays.scopes, hstays.introduces, hok⟩

theorem checksPart_optional (engine : EngineTable) (e : Option Expr) :
    ChecksPart (e.toList.flatMap Expr.ids) (checkOptional engine e) silent fun visible final =>
      ∀ x ∈ e, Usable engine final visible x := by
  cases e with
  | none => exact .pure fun _ _ _ h => by cases h
  | some e =>
    intro s hinv _ hfresh hnodup
    simp only [toList_some, flatMap_cons, flatMap_nil, append_nil] at hfresh hnodup ⊢
    refine (checksExpr engine e s hinv hfresh hnodup).bindLast fun r s1 _ _ => .pure ?_
    rintro final - - - ⟨hstays, type, -, hok⟩ -
    refine ⟨hstays.scopes, hstays.introduces, fun x hx => ?_⟩
    cases hx
    exact hok.toUsable

theorem checksPart_loopCondition (engine : EngineTable) (cond : Option Expr) :
    ChecksPart (cond.toList.flatMap Expr.ids)
      (match cond with
        | some cond => checkCondition engine cond
        | none => pure ())
      silent fun visible final => ∀ e ∈ cond, UsableAs engine final visible .int e := by
  cases cond with
  | none => exact .pure fun _ _ _ h => by cases h
  | some cond =>
    simp only [toList_some, flatMap_cons, flatMap_nil, append_nil]
    exact (checksPart_condition engine cond).weaken fun _ _ h e he => Option.some.inj he ▸ h

theorem checksPart_return (engine : EngineTable) (ret : Ty) (pos : Pos) (value : Option Expr) :
    ChecksPart (value.toList.flatMap Expr.ids) (checkReturn engine ret pos value) silent
      fun visible final => ReturnOk engine final ret visible value := by
  cases value with
  | none =>
    rw [checkReturn]
    split
    · next h => exact .pure fun _ _ => h
    · exact .report pos rfl
  | some e =>
    intro s hinv _ hfresh hnodup
    simp only [toList_some, flatMap_cons, flatMap_nil, append_nil] at hfresh hnodup ⊢
    refine (checksExpr engine e s hinv hfresh hnodup).bindLast fun r s1 _ _ => ?_
    split
    · exact .report _ rfl
    · next hvoid =>
      cases r with
      | none => exact .pure fun _ _ _ _ ⟨_, _, h, _⟩ => by cases h
      | some type =>
        dsimp only
        split
        · exact .report _ rfl
        · next h =>
          obtain rfl : type = ret := Decidable.not_not.mp h
          refine .pure ?_
          rintro final - - - ⟨hstays, _, ⟨⟩, hok⟩ -
          exact ⟨hstays.scopes, hstays.introduces, hvoid, hok⟩

/-! ## Switches -/

theorem sound_switchValue {value : Expr} (hinv : s.Inv) (hfresh : s.Fresh value.ids)
    (hnodup : value.ids.Nodup) :
    Sound value.ids (checkSwitchValue engine value) s fun r s' final => Stays s s' ∧
      ∃ type, r = some type ∧ UsableAs engine final s.visible type value ∧
        (type = .int ∨ type = .string) := by
  refine (checksExpr engine value s hinv hfresh hnodup).bindLast fun r s1 _ _ => ?_
  split
  · refine .pure ?_
    rintro final - - - ⟨hstays, _, ⟨⟩, hok⟩ -
    exact ⟨hstays, .int, rfl, hok, .inl rfl⟩
  · refine .pure ?_
    rintro final - - - ⟨hstays, _, ⟨⟩, hok⟩ -
    exact ⟨hstays, .string, rfl, hok, .inr rfl⟩
  · exact .fail _ rfl
  · exact .pure fun _ _ _ _ ⟨_, _, h, _⟩ => by cases h

theorem sound_checkCase {label : Expr} (labels : SwitchLabels) (hinv : s.Inv)
    (hfresh : s.Fresh label.ids) (hnodup : label.ids.Nodup) :
    Sound label.ids (checkCase engine label labels) s fun r s' final => Stays s s' ∧
      r.type = labels.type ∧ r.hasDefault = labels.hasDefault ∧
      ∀ type, labels.type = some type → CaseOk engine final s.visible type label := by
  refine (checksExpr engine label s hinv hfresh hnodup).bindLast fun r s1 _ _ => ?_
  cases r with
  | none => exact .pure fun _ _ _ _ ⟨_, _, h, _⟩ => by cases h
  | some actual =>
    refine .read (constOf_apply _ s1) ?_
    cases hv : s1.analysis.valueOf label with
    | none => exact .afterReport _ rfl fun s' => .refl _ s'
    | some value =>
      dsimp only
      split
      · exact .afterReport _ rfl fun s' => .refl _ s'
      · next htype =>
        split
        · exact .afterReport _ rfl fun s' => .refl _ s'
        · refine .pure ?_
          rintro final - - - ⟨hstays, _, ⟨⟩, hok⟩ hs
          refine ⟨hstays, rfl, rfl, fun type hlabels => ⟨?_, ?_⟩⟩
          · rw [hlabels] at htype
            obtain rfl : type = actual := Decidable.not_not.mp htype
            exact hok
          · rw [Analysis.valueOf, hs.consts label.id_mem_ids]
            exact congrArg Option.isSome hv

theorem sound_checkDefault (pos : Pos) (labels : SwitchLabels) (s : CheckState) :
    Sound [] (checkDefault pos labels) s fun r s' _ => s' = s ∧ r.type = labels.type ∧
      r.hasDefault = true ∧ labels.hasDefault = false := by
  unfold checkDefault
  split
  · exact .afterReport _ rfl fun s' => .refl _ s'
  · next h => exact .pure fun _ _ _ => ⟨rfl, rfl, rfl, by simpa using h⟩

theorem sound_reportSkipped (skippable : List (String × Pos)) (s : CheckState) :
    Sound [] (reportSkipped skippable) s fun _ s' _ => s' = s ∧ skippable = [] := by
  cases skippable with
  | nil => exact .pure fun _ _ _ => ⟨rfl, rfl⟩
  | cons p rest =>
    refine .afterReport p.2 rfl fun s' => ?_
    induction rest generalizing s' with
    | nil => exact .refl _ s'
    | cons q rest ih => exact (Writes.report [] s' _).trans (ih _)

/-! ## Sequences -/

def warned (st : Stmt) (final : Analysis) : List Pos := (Control.dead final.consts st).positions

def warnedIn (inSwitch : Bool) (state : SequenceState) (ss : List Stmt) (final : Analysis) : List Pos :=
  (Control.deadIn final.consts inSwitch state.reachable state.reported ss).positions

structure StmtChecked (engine : EngineTable) (ctx : BodyContext) (s : CheckState) (st : Stmt)
    (s' : CheckState) (final : Analysis) : Prop where
  ok : StmtOk engine final ctx s.visible st
  visible : s'.visible = st.opens final s.visible
  introduces : Introduces (warned st final) s s'

def ChecksStmt (engine : EngineTable) (st : Stmt) : Prop :=
  ∀ (ctx : BodyContext) (s : CheckState), s.Inv → s.scopes.scopes ≠ [] → s.Fresh st.ids →
    st.ids.Nodup → Sound st.ids (checkStmt engine ctx st) s fun _ => StmtChecked engine ctx s st

def warnedOf (state : SequenceState) (st : Stmt) : List Pos :=
  if Control.reports state.reachable state.reported st then [st.pos] else []

theorem sound_warnUnreachable (state : SequenceState) (st : Stmt) (s : CheckState) :
    Sound [] (warnUnreachable state st) s fun r s' _ => Introduces (warnedOf state st) s s' ∧
      s'.visible = s.visible ∧
      r = (Control.reports state.reachable state.reported st || state.reported) := by
  have heq : warnUnreachable state st = if Control.reports state.reachable state.reported st then
      Check.report st.pos .unreachable >>= fun _ => Pure.pure true else Pure.pure state.reported := by
    cases st <;> rfl
  rw [heq, warnedOf]
  split
  · next h =>
    refine ⟨Writes.report [] s ⟨.unreachable, st.pos⟩, fun _ _ _ => ⟨⟨rfl, rfl, id, rfl⟩, rfl, ?_⟩⟩
    rw [h]
    rfl
  · next h => exact .pure fun _ _ _ => ⟨.refl s, rfl, by simp [h]⟩

/-- What the check of a statement of a sequence that is not a label finds out. -/
structure PlainChecked (engine : EngineTable) (ctx : BodyContext) (state : SequenceState)
    (s : CheckState) (st : Stmt) (reported : Bool) (s' : CheckState) (final : Analysis) : Prop where
  ok : StmtOk engine final ctx s.visible st
  visible : s'.visible = st.opens final s.visible
  reported : reported = (Control.reports state.reachable state.reported st || state.reported)
  goesOn : st.goesOn s'.analysis.consts = st.goesOn final.consts
  introduces : Introduces (warnedOf state st ++ warned st final) s s'

theorem PlainChecked.warnedIn {s' s'' : CheckState} {reported : Bool}
    (h : PlainChecked engine ctx state s st reported s' final) {inSwitch : Bool}
    (hplain : inSwitch = false ∨ st.isLabel = false) {skippable : List (String × Pos)}
    {labels : Option SwitchLabels} (hrest : Introduces (Check.warnedIn inSwitch
      { reachable := state.reachable && st.goesOn s'.analysis.consts
        reported, skippable, labels } ss final) s' s'') :
    Introduces (Check.warnedIn inSwitch state (st :: ss) final) s s'' := by
  rw [Check.warnedIn, h.reported, h.goesOn] at hrest
  rw [Check.warnedIn, Control.positions_deadIn_cons hplain]
  exact h.introduces.trans hrest

theorem sound_plain (hst : ChecksStmt engine st) {k : Bool → Analysis → Check Unit}
    {R : CheckState → Analysis → Prop} (hinv : s.Inv) (hopen : s.scopes.scopes ≠ [])
    (hfresh : s.Fresh (st.ids ++ ids)) (hnodup : (st.ids ++ ids).Nodup)
    (hk : ∀ reported s1, s1.Inv → s1.scopes.scopes ≠ [] → s1.Fresh ids → ids.Nodup →
      Sound ids (k reported s1.analysis) s1 fun _ s2 final =>
        PlainChecked engine ctx state s st reported s1 final → R s2 final) :
    Sound (st.ids ++ ids) (warnUnreachable state st >>= fun reported =>
      checkStmt engine ctx st >>= fun _ => analysis >>= k reported) s fun _ => R := by
  obtain ⟨hnodup1, hnodup2, hdisjoint⟩ := nodup_append'.mp hnodup
  refine (sound_warnUnreachable state st s).bind (disjoint_nil_left _) fun reported s1 _ hw1 => ?_
  have hfresh1 := hw1.fresh hfresh (disjoint_nil_left _)
  refine (hst ctx s1 (hw1.inv hinv) (hw1.isOpen hopen)
    (fun id hid => hfresh1 id (mem_append_left _ hid)) hnodup1).bind hdisjoint
    fun _ s2 _ hw2 => .read (analysis_apply s2) ?_
  refine (hk reported s2 (hw2.inv (hw1.inv hinv)) (hw2.isOpen (hw1.isOpen hopen)) (hw2.fresh
    (fun id hid => hfresh1 id (mem_append_right _ hid)) hdisjoint) hnodup2).weaken ?_
  rintro - s3 final - - - hR - hchecked hs - ⟨hintro, hvisible, hreported⟩ -
  refine hR ⟨?_, ?_, hreported, ?_, hintro.trans hchecked.introduces⟩
  · exact hvisible ▸ hchecked.ok
  · exact hvisible ▸ hchecked.visible
  · exact goesOn_congr fun id hid => (hs.consts hid).symm

theorem checkStmts_plain (rest : List Stmt) (h : state.labels = none ∨ st.isLabel = false) :
    checkStmts engine ctx state (st :: rest) = warnUnreachable state st >>= fun reported =>
      checkStmt engine ctx st >>= fun _ => analysis >>= fun a => checkStmts engine ctx
          { reachable := state.reachable && st.goesOn a.consts
            reported
            skippable := state.skippable ++ if state.labels.isSome then skippableNames st else []
            labels := state.labels } rest := by
  rw [checkStmts]
  · rintro pos label labels rfl hsome
    simp [hsome, Stmt.isLabel] at h
  · rintro pos labels rfl hsome
    simp [hsome, Stmt.isLabel] at h

theorem sound_checkStmts (ih : ∀ st ∈ ss, ChecksStmt engine st) (hlabels : state.labels = none)
    (hinv : s.Inv) (hopen : s.scopes.scopes ≠ []) (hfresh : s.Fresh (Stmt.idsOf ss))
    (hnodup : (Stmt.idsOf ss).Nodup) :
    Sound (Stmt.idsOf ss) (checkStmts engine ctx state ss) s fun _ s' final =>
      BlockOk engine final ctx s.visible ss ∧ Introduces (warnedIn false state ss final) s s' := by
  induction ss generalizing s state with
  | nil => exact .pure fun _ _ _ => ⟨trivial, .refl s⟩
  | cons st rest ihrest =>
    rw [checkStmts_plain rest (.inl hlabels)]
    refine sound_plain (ih st (.head _)) hinv hopen hfresh hnodup
      fun reported s1 hinv1 hopen1 hfresh1 hnodup1 => ?_
    refine (ihrest (fun x hx => ih x (.tail _ hx)) ?_ hinv1 hopen1 hfresh1 hnodup1).weaken ?_
    · exact hlabels
    · rintro - s2 final - - - ⟨hrest, hintro⟩ hst
      exact ⟨⟨hst.ok, hst.visible ▸ hrest⟩, hst.warnedIn (.inl rfl) hintro⟩

/-! ## Bodies of switches -/

/-- The check of the rest of a switch body finds out that it is in order, provided that the labels
are those of a switch on values of a type, and that the variables visible from outside are all that
are visible unless declarations are remembered. -/
def SwitchChecked (engine : EngineTable) (ctx : BodyContext) (state : SequenceState)
    (labels : SwitchLabels) (s : CheckState) (ss : List Stmt) (s' : CheckState) (final : Analysis) :
    Prop :=
  Introduces (warnedIn true state ss final) s s' ∧ ∀ type outer, labels.type = some type →
    (state.skippable = [] → s.visible = outer) →
    SwitchOk engine final ctx type outer s.visible ss ∧
    (labels.hasDefault = true → ss.any Stmt.isDefault = false)

theorem skippableNames_eq_nil (h : skippableNames st = []) (a : Analysis) (visible : List VarId) :
    st.opens a visible = visible := by
  cases st with
  | var pos decl =>
    obtain h : decl.vars = [] := map_eq_nil_iff.mp h
    rw [Stmt.opens, h]
    rfl
  | _ => rfl

def LabelOk (engine : EngineTable) (ctx : BodyContext) (labels : SwitchLabels) (st : Stmt)
    (rest : List Stmt) (r : SwitchLabels) (visible : List VarId) (final : Analysis) : Prop :=
  r.type = labels.type ∧ ∀ type, labels.type = some type →
    (r.hasDefault = true → rest.any Stmt.isDefault = false) →
    SwitchOk engine final ctx type visible visible rest →
    SwitchOk engine final ctx type visible visible (st :: rest) ∧
      (labels.hasDefault = true → (st :: rest).any Stmt.isDefault = false)

theorem sound_label {rest : List Stmt} {m : Check SwitchLabels} (hinv : s.Inv)
    (hopen : s.scopes.scopes ≠ []) (hfresh : s.Fresh (st.ids ++ Stmt.idsOf rest))
    (hnodup : (st.ids ++ Stmt.idsOf rest).Nodup) (hst : st.isLabel = true)
    (hm : Sound st.ids m s fun r s' final =>
      Stays s s' ∧ LabelOk engine ctx labels st rest r s.visible final)
    (hrest : ∀ r s1, s1.Inv → s1.scopes.scopes ≠ [] → s1.Fresh (Stmt.idsOf rest) →
      (Stmt.idsOf rest).Nodup → Sound (Stmt.idsOf rest)
        (checkStmts engine ctx { labels := some r } rest) s1 fun _ =>
          SwitchChecked engine ctx { labels := some r } r s1 rest) :
    Sound (st.ids ++ Stmt.idsOf rest) (m >>= fun r => reportSkipped state.skippable >>= fun _ =>
      checkStmts engine ctx { labels := some r } rest) s fun _ =>
        SwitchChecked engine ctx state labels s (st :: rest) := by
  obtain ⟨_, hnodup2, hdisjoint⟩ := nodup_append'.mp hnodup
  refine hm.bind hdisjoint fun r s1 _ hw1 => ?_
  refine (sound_reportSkipped _ s1).bind (disjoint_nil_left _) fun _ s2 _ hw2 => ?_
  have hfresh1 := hw1.fresh (fun id hid => hfresh id (mem_append_right _ hid)) hdisjoint
  refine (hrest r s2 (hw2.inv (hw1.inv hinv)) (hw2.isOpen (hw1.isOpen hopen))
    (hw2.fresh hfresh1 (disjoint_nil_left _)) hnodup2).weaken ?_
  rintro - s3 final - - - ⟨hintro, hchecked⟩ - ⟨rfl, hskip⟩ - - ⟨hstays, hr, hlabel⟩ -
  have hwarned : warnedIn true { labels := some r } rest final = warnedIn true state (st :: rest) final :=
    (Control.positions_deadIn_label hst ..).symm
  refine ⟨hwarned ▸ hstays.introduces.trans hintro, fun type outer htype houter => ?_⟩
  obtain rfl := houter hskip
  obtain ⟨hok, hdefault⟩ := hchecked type s.visible (hr.trans htype) fun _ => hstays.visible
  rw [hstays.visible] at hok
  exact hlabel type htype hdefault hok

theorem labelOk_case {r : SwitchLabels} {label : Expr} (rest : List Stmt)
    (htype : r.type = labels.type) (hdefault : r.hasDefault = labels.hasDefault)
    (hcase : ∀ type, labels.type = some type → CaseOk engine final visible type label) :
    LabelOk engine ctx labels (.caseLabel pos label) rest r visible final := by
  refine ⟨htype, fun type ht hd hok => ⟨⟨⟨rfl, hcase type ht⟩, hok⟩, fun h => ?_⟩⟩
  rw [any_cons, hd (hdefault.trans h)]
  rfl

theorem labelOk_default {r : SwitchLabels} (rest : List Stmt) (htype : r.type = labels.type)
    (hr : r.hasDefault = true) (hnone : labels.hasDefault = false) :
    LabelOk engine ctx labels (.defaultLabel pos) rest r visible final :=
  ⟨htype, fun _ _ hd hok => ⟨⟨⟨rfl, hd hr⟩, hok⟩, fun h => by simp [hnone] at h⟩⟩

theorem switchOk_plain {a : Analysis} {type : Ty} {outer : List VarId} {rest : List Stmt}
    (hst : StmtOk engine a ctx visible st)
    (hrest : SwitchOk engine a ctx type outer (st.opens a visible) rest) :
    SwitchOk engine a ctx type outer visible (st :: rest) := by
  rw [SwitchOk]
  · exact ⟨hst, hrest⟩
  · rintro pos label rfl
    exact hst
  · rintro pos rfl
    exact hst

theorem sound_switchBody (ih : ∀ st ∈ ss, ChecksStmt engine st)
    (hlabels : state.labels = some labels) (hinv : s.Inv) (hopen : s.scopes.scopes ≠ [])
    (hfresh : s.Fresh (Stmt.idsOf ss)) (hnodup : (Stmt.idsOf ss).Nodup) :
    Sound (Stmt.idsOf ss) (checkStmts engine ctx state ss) s fun _ =>
      SwitchChecked engine ctx state labels s ss := by
  induction ss generalizing s state labels with
  | nil => exact .pure fun _ _ _ => ⟨.refl s, fun _ _ _ _ => ⟨trivial, fun _ => rfl⟩⟩
  | cons st rest ihrest =>
    have hrest : ∀ state labels, state.labels = some labels → ∀ s1 : CheckState, s1.Inv →
        s1.scopes.scopes ≠ [] → s1.Fresh (Stmt.idsOf rest) → (Stmt.idsOf rest).Nodup →
        Sound (Stmt.idsOf rest) (checkStmts engine ctx state rest) s1 fun _ =>
          SwitchChecked engine ctx state labels s1 rest :=
      fun _ _ hl _ => ihrest (fun x hx => ih x (.tail _ hx)) hl
    have hnodup1 := (nodup_append'.mp hnodup).1
    have hfresh1 : s.Fresh st.ids := fun id hid => hfresh id (mem_append_left _ hid)
    by_cases hlabel : st.isLabel = true
    · cases st with
      | caseLabel pos label =>
        simp only [checkStmts, hlabels]
        refine sound_label hinv hopen hfresh hnodup rfl ?_ fun r => hrest _ r rfl
        exact (sound_checkCase labels hinv hfresh1 hnodup1).weaken
          fun _ _ _ _ _ _ ⟨hstays, htype, hdefault, hcase⟩ =>
            ⟨hstays, labelOk_case rest htype hdefault hcase⟩
      | defaultLabel pos =>
        simp only [checkStmts, hlabels]
        refine sound_label hinv hopen hfresh hnodup rfl ?_ fun r => hrest _ r rfl
        exact (sound_checkDefault pos labels s).weaken fun _ _ _ _ _ _ ⟨hsame, htype, hr, hnone⟩ =>
            ⟨hsame ▸ .refl s, labelOk_default rest htype hr hnone⟩
      | _ => simp [Stmt.isLabel] at hlabel
    · have hnotLabel : st.isLabel = false := by simpa using hlabel
      rw [checkStmts_plain rest (.inr hnotLabel)]
      refine sound_plain (ih st (.head _)) hinv hopen hfresh hnodup
        fun reported s1 hinv1 hopen1 hfresh1 hnodup1 => ?_
      refine (hrest _ labels ?_ s1 hinv1 hopen1 hfresh1 hnodup1).weaken ?_
      · exact hlabels
      rintro - s2 final - - - ⟨hintro, hchecked⟩ hst
      refine ⟨hst.warnedIn (.inr hnotLabel) hintro, fun type outer htype houter => ?_⟩
      have houter1 : (state.skippable ++ if state.labels.isSome then skippableNames st else []) = [] →
          s1.visible = outer := by
        rw [hlabels]
        intro hskip
        obtain ⟨hskip, hnames⟩ := append_eq_nil_iff.mp hskip
        rw [hst.visible, skippableNames_eq_nil hnames, houter hskip]
      obtain ⟨hok, hdefault⟩ := hchecked type outer htype houter1
      refine ⟨switchOk_plain hst.ok (hst.visible ▸ hok), fun h => ?_⟩
      rw [any_cons, hdefault h, Bool.or_false]
      cases st <;> simp_all [Stmt.isLabel, Stmt.isDefault]

/-! ## Statements -/

theorem keeps_inScope {m : Check Unit} {W : Analysis → List Pos} {Q : Analysis → Prop}
    (hm : Sound ids m { s with scopes := s.scopes.push } fun _ s' final =>
      Q final ∧ Introduces (W final) { s with scopes := s.scopes.push } s') :
    Sound ids (inScope m) s (Keeps s W fun _ => Q) := by
  refine (sound_inScope hm).weaken ?_
  rintro - s' final - - - ⟨hscopes, s1, scopes, ⟨hQ, hintro⟩, rfl⟩
  exact ⟨hscopes, ⟨hintro.names, hintro.globals, hintro.varsOk, hintro.findings⟩, hQ⟩

theorem inv_push (h : s.Inv) : Inv { s with scopes := s.scopes.push } :=
  ⟨h.visible, h.globals, h.known⟩

theorem ChecksStmt.nested (h : ChecksStmt engine st) (ctx : BodyContext) :
    ChecksPart st.ids (inScope (checkStmt engine ctx st)) (warned st)
      fun visible final => StmtOk engine final ctx visible st := by
  intro s hinv _ hfresh hnodup
  have hst := h ctx _ (inv_push hinv) (cons_ne_nil _ _) hfresh hnodup
  exact keeps_inScope (hst.weaken fun _ _ _ _ _ _ hchecked => ⟨hchecked.ok, hchecked.introduces⟩)

theorem ChecksStmt.of_part (hopens : ∀ a visible, st.opens a visible = visible)
    (h : ∀ ctx, ChecksPart st.ids (checkStmt engine ctx st) (warned st) fun visible final =>
      StmtOk engine final ctx visible st) : ChecksStmt engine st := by
  intro ctx s hinv hopen hfresh hnodup
  refine (h ctx s hinv hopen hfresh hnodup).weaken ?_
  rintro - s' final - - - ⟨hscopes, hintro, hok⟩
  exact ⟨hok, by rw [hopens, visible, visible, hscopes], hintro⟩

theorem checksStmt_block {body : List Stmt} (ih : ∀ st ∈ body, ChecksStmt engine st) :
    ChecksStmt engine (.block pos body) := by
  refine .of_part (fun _ _ => rfl) fun ctx s hinv _ hfresh hnodup => ?_
  exact keeps_inScope (sound_checkStmts ih rfl (inv_push hinv) (cons_ne_nil _ _) hfresh hnodup)

theorem checksStmt_var (engine : EngineTable) (pos : Pos) (decl : VarDecl) :
    ChecksStmt engine (.var pos decl) := by
  intro ctx s hinv hopen hfresh hnodup
  rw [checkStmt]
  refine (sound_variableType engine decl s).bind (disjoint_nil_left _) fun type s1 _ hw => ?_
  refine (sound_localDeclarators (hw.inv hinv) (hw.isOpen hopen)
    (hw.fresh hfresh (disjoint_nil_left _)) hnodup).weaken ?_
  rintro - s2 final - - - hlocals - ⟨rfl, ty, rfl, hstorable⟩ -
  obtain ⟨hok, hvisible, hintro⟩ := hlocals ty rfl hstorable
  exact ⟨hok, hvisible, hintro⟩

theorem checksStmt_switch {value : Expr} {body : List Stmt} (ih : ∀ st ∈ body, ChecksStmt engine st) :
    ChecksStmt engine (.switch pos value body) := by
  refine .of_part (fun _ _ => rfl) fun ctx s hinv _ hfresh hnodup => ?_
  obtain ⟨hnodup1, hnodup2, hdisjoint⟩ := nodup_append'.mp hnodup
  rw [checkStmt]
  refine (sound_switchValue hinv (fun id hid => hfresh id (mem_append_left _ hid)) hnodup1).bind
    hdisjoint fun type s1 _ hw => ?_
  have hbody : Sound (Stmt.idsOf body)
      (checkStmts engine ctx.inSwitch { labels := some { type } } body) _ _ :=
    sound_switchBody ih rfl (inv_push (hw.inv hinv)) (cons_ne_nil _ _)
      (hw.fresh (fun id hid => hfresh id (mem_append_right _ hid)) hdisjoint) hnodup2
  refine (keeps_inScope (hbody.weaken fun _ _ _ _ _ _ ⟨hintro, hok⟩ => ⟨hok, hintro⟩)).weaken ?_
  rintro - s2 final - - - ⟨hscopes, hintro, hok⟩ - ⟨hstays, ty, rfl, hvalue, hty⟩ -
  refine ⟨hscopes.trans hstays.scopes, hstays.introduces.trans hintro, ty, hvalue, hty, ?_⟩
  have hvisible : visible { s1 with scopes := s1.scopes.push } = s.visible := hstays.visible
  exact hvisible ▸ (hok ty s.visible rfl fun _ => hvisible).1

theorem checksStmt (engine : EngineTable) (st : Stmt) : ChecksStmt engine st := by
  induction st using Stmt.inductionOn with
  | block pos body ih => exact checksStmt_block ih
  | var pos decl => exact checksStmt_var engine pos decl
  | expr pos e =>
    refine .of_part (fun _ _ => rfl) fun ctx => ?_
    have h := checksPart_optional engine (some e)
    simp only [toList_some, flatMap_cons, flatMap_nil, append_nil] at h
    exact h.weaken fun _ _ hok => hok e rfl
  | ifThen pos cond yes ih =>
    refine .of_part (fun _ _ => rfl) fun ctx => ?_
    exact ((checksPart_condition engine cond).seq (ih.nested ctx)).warns
      fun _ => (Control.StmtSites.positions_below 0 _).symm
  | ifElse pos cond yes no ihy ihn =>
    refine .of_part (fun _ _ => rfl) fun ctx => ?_
    exact ((checksPart_condition engine cond).seq ((ihy.nested ctx).seq (ihn.nested ctx))).warns
      fun _ => by simp [silent, warned, Control.dead]
  | whileLoop pos cond body ih =>
    refine .of_part (fun _ _ => rfl) fun ctx => ?_
    exact ((checksPart_condition engine cond).seq (ih.nested ctx.inLoop)).warns
      fun _ => (Control.StmtSites.positions_below 0 _).symm
  | doWhile pos body cond ih =>
    refine .of_part (fun _ _ => rfl) fun ctx => ?_
    exact ((ih.nested ctx.inLoop).seq (checksPart_condition engine cond)).warns
      fun _ => by simp [silent, warned, Control.dead]
  | forLoop pos init cond next body ih =>
    refine .of_part (fun _ _ => rfl) fun ctx => ?_
    have h := ((checksPart_optional engine init).seq ((checksPart_loopCondition engine cond).seq
      ((checksPart_optional engine next).seq (ih.nested ctx.inLoop)))).warns
        fun _ => (Control.StmtSites.positions_below 0 _).symm
    cases cond with
    | none => exact h
    | some cond => exact h
  | switch pos value body ih => exact checksStmt_switch ih
  | caseLabel pos label =>
    exact .of_part (fun _ _ => rfl) fun ctx => .report pos rfl
  | defaultLabel pos =>
    exact .of_part (fun _ _ => rfl) fun ctx => .report pos rfl
  | ret pos value =>
    exact .of_part (fun _ _ => rfl) fun ctx => checksPart_return engine ctx.ret pos value
  | breakOut pos =>
    refine .of_part (fun _ _ => rfl) fun ctx => ?_
    rw [checkStmt]
    split
    · exact .report pos rfl
    · next h => exact .pure fun _ _ => h
  | continueLoop pos =>
    refine .of_part (fun _ _ => rfl) fun ctx => ?_
    rw [checkStmt]
    split
    · exact .report pos rfl
    · next h => exact .pure fun _ _ => h
  | empty pos => exact .of_part (fun _ _ => rfl) fun ctx => .pure fun _ _ => trivial

end Check
end Nwscript
