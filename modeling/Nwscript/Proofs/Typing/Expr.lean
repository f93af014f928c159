import Nwscript.Proofs.Typing.Node
import Nwscript.Proofs.Typing.Value

/-! # Checked expressions

The check of an expression records what the typing rules say, or reports an error: first for its
parts, then for its own node. -/

open List

namespace Nwscript
namespace Check

open CheckState

/-! ## Expressions -/

def NodeRead (s : CheckState) (a : Analysis) : Expr → Prop
  | .ident node name => a.refs.get? node.id = s.resolve name
  | .binary _ op _ rhs => DividesOk a op rhs
  | _ => True

/-- The names of an expression stand for what they stand for in the state, and no divisor in it is
known to be zero. -/
def ExprRead (s : CheckState) (a : Analysis) (e : Expr) : Prop := ∀ p ∈ e.parts, NodeRead s a p

variable {s : CheckState} {a : Analysis} {e target : Expr} {engine : EngineTable} {es : List Expr}

theorem exprRead_iff : ExprRead s a e ↔ NodeRead s a e ∧ ∀ c ∈ e.children, ExprRead s a c := by
  constructor
  · intro h
    exact ⟨h e e.self_mem_parts, fun c hc p hp => h p (Expr.mem_parts_iff.mpr (.inr ⟨c, hc, hp⟩))⟩
  · rintro ⟨hnode, hchildren⟩ p hp
    rcases Expr.mem_parts_iff.mp hp with rfl | ⟨c, hc, hp⟩
    · exact hnode
    · exact hchildren c hc p hp

theorem NodeRead.of_stays {s' : CheckState} (h : NodeRead s' a e) (hs : Stays s s') :
    NodeRead s a e := by
  cases e with
  | ident node name => exact h.trans (hs.resolve name)
  | _ => exact h

def ExprChecked (engine : EngineTable) (s : CheckState) (e : Expr) (r : Option Ty) (s' : CheckState)
    (final : Analysis) : Prop :=
  Stays s s' ∧ ∃ type, r = some type ∧ UsableAs engine final s.visible type e

def ExprsChecked (engine : EngineTable) (s : CheckState) (es : List Expr) (r : List (Option Ty))
    (s' : CheckState) (final : Analysis) : Prop :=
  Stays s s' ∧ r = es.map final.typeOf ∧
    ∀ e ∈ es, (∃ type, UsableAs engine final s.visible type e) ∧ ExprRead s final e

def ChecksExpr (engine : EngineTable) (e : Expr) : Prop :=
  ∀ s : CheckState, s.Inv → s.Fresh e.ids → e.ids.Nodup →
    Sound e.ids (checkExpr engine e) s fun r s' final =>
      ExprChecked engine s e r s' final ∧ ExprRead s final e

theorem sound_checkExprs (ih : ∀ e ∈ es, ChecksExpr engine e) (hinv : s.Inv)
    (hfresh : s.Fresh (Expr.idsOf es)) (hnodup : (Expr.idsOf es).Nodup) :
    Sound (Expr.idsOf es) (checkExprs engine es) s (ExprsChecked engine s es) := by
  induction es generalizing s with
  | nil => exact .pure fun _ _ _ => ⟨.refl s, rfl, fun e he => by cases he⟩
  | cons e es ihes =>
    rw [Expr.idsOf_cons] at hfresh hnodup ⊢
    obtain ⟨hnodup1, hnodup2, hdisjoint⟩ := nodup_append'.mp hnodup
    have hfirst := ih e (.head _) s hinv
      (fun id hid => hfresh id (mem_append_left _ hid)) hnodup1
    rw [checkExprs]
    refine hfirst.bind hdisjoint fun type s1 _ hw => ?_
    have hrest := ihes (fun e he => ih e (.tail _ he)) (hw.inv hinv)
      (hw.fresh (fun id hid => hfresh id (mem_append_right _ hid)) hdisjoint) hnodup2
    refine hrest.bindLast fun types s2 _ _ => .pure ?_
    rintro final - - - ⟨hstays2, rfl, hes⟩ - - ⟨⟨hstays1, type, rfl, he⟩, hread⟩ -
    rw [hstays1.visible] at hes
    refine ⟨hstays1.trans hstays2, by rw [map_cons, he.typeOf], fun x hx => ?_⟩
    rcases mem_cons.mp hx with rfl | hx
    · exact ⟨⟨type, he⟩, hread⟩
    · exact ⟨(hes x hx).1, fun p hp => ((hes x hx).2 p hp).of_stays hstays1⟩

def ChecksParts (engine : EngineTable) (es : List Expr) (parts : Check (List (Option Ty)))
    (X : Analysis → Prop) : Prop :=
  ∀ s : CheckState, s.Inv → s.Fresh (Expr.idsOf es) → (Expr.idsOf es).Nodup →
    Sound (Expr.idsOf es) parts s fun r s' final => ExprsChecked engine s es r s' final ∧ X final

theorem checksParts (ih : ∀ e ∈ es, ChecksExpr engine e) :
    ChecksParts engine es (checkExprs engine es) fun _ => True :=
  fun _ hinv hfresh hnodup => (sound_checkExprs ih hinv hfresh hnodup).weaken
    fun _ _ _ _ _ _ h => ⟨h, trivial⟩

theorem sound_node {parts : Check (List (Option Ty))} {X : Analysis → Prop}
    (hparts : ChecksParts engine e.children parts X) {k : List (Option Ty) → Check (Option Ty)}
    {Q : List (Option Ty) → CheckState → Option Ty → NodeFacts → Prop}
    (hk : ∀ types s, s.Inv → s.analysis.facts e.id = {} →
      (s.NoErrors → types = e.children.map s.analysis.typeOf ∧
        ∀ c ∈ e.children, ExprOk engine s.analysis c) → Own e.id (k types) s (Q types s))
    (hrule : ∀ s final r f, s.analysis.Settled final (Expr.idsOf e.children) →
      final.refs.get? e.id = f.ref → final.calls.get? e.id = f.call →
      (∀ c ∈ e.children, ∃ type, final.typeOf c = some type) → X final →
      Q (e.children.map final.typeOf) s r f →
      ∃ type, r = some type ∧ TypeRule engine final e type f.value ∧ NodeRead s final e ∧
        ∀ var, f.ref = some var → var ∈ s.visible ∨ var ∈ final.globals)
    (heq : checkExpr engine e = parts >>= fun types => typed e (k types)) : ChecksExpr engine e := by
  intro s hinv hfresh hnodup
  rw [Expr.ids_eq_cons] at hfresh hnodup
  obtain ⟨hnot, hnodup'⟩ := nodup_cons.mp hnodup
  have hdisjoint : (Expr.idsOf e.children).Disjoint [e.id] := by
    simpa [disjoint_singleton] using hnot
  have hparts := hparts s hinv (fun id hid => hfresh id (.tail _ hid)) hnodup'
  rw [heq, Expr.ids_eq_cons]
  refine Sound.perm ?_ (perm_append_singleton _ _)
  refine hparts.bind hdisjoint fun types s1 hs1 hw => ?_
  have hnow (he : s1.NoErrors) : types = e.children.map s1.analysis.typeOf ∧
      ∀ c ∈ e.children, ExprOk engine s1.analysis c := by
    obtain ⟨rfl, rfl⟩ := Prod.mk.inj hs1.symm
    obtain ⟨⟨-, htypes, hchildren⟩, -⟩ := hparts.sound _ he (.refl _ _)
    refine ⟨htypes, fun c hc => ?_⟩
    obtain ⟨⟨_, h⟩, -⟩ := hchildren c hc
    exact h.ok
  have hfresh1 : s1.analysis.facts e.id = {} :=
    hw.fresh (fun id hid => hfresh id (by simp_all)) hdisjoint e.id (mem_singleton_self _)
  refine (own_typed (hk types s1 (hw.inv hinv) hfresh1 hnow)).sound.weaken ?_
  rintro r s2 final - - - ⟨hstays2, f, hQ, hfacts⟩ - ⟨⟨hstays1, rfl, hchildren⟩, hX⟩ hsettled
  have htyped : ∀ c ∈ e.children, ∃ type, final.typeOf c = some type := fun c hc => by
    obtain ⟨⟨type, h⟩, -⟩ := hchildren c hc
    exact ⟨type, h.typeOf⟩
  obtain ⟨type, rfl, hrule, hread, href⟩ := hrule s1 final r f hsettled (congrArg NodeFacts.ref hfacts)
    (congrArg NodeFacts.call hfacts) htyped hX hQ
  have htype : final.typeOf e = some type := congrArg NodeFacts.type hfacts
  have hvalue : final.valueOf e = f.value := congrArg NodeFacts.value hfacts
  refine ⟨⟨hstays1.trans hstays2, type, rfl, usable_iff.mpr ⟨?_, ?_, ?_⟩, htype⟩,
    exprRead_iff.mpr ⟨hread.of_stays hstays1, fun c hc => (hchildren c hc).2⟩⟩
  · exact ⟨type, f.value, hrule, htype, hvalue⟩
  · intro var hvar
    rw [← hstays1.visible]
    exact href var ((congrArg NodeFacts.ref hfacts).symm.trans hvar)
  · intro c hc
    obtain ⟨⟨_, h⟩, -⟩ := hchildren c hc
    exact h.toUsable

/-- What follows the check of the parts of a node: nothing, unless all of them have types. -/
def ofOne (k : Ty → Check (Option Ty)) : List (Option Ty) → Check (Option Ty)
  | [some a] => k a
  | _ => return none

@[inherit_doc ofOne]
def ofTwo (k : Ty → Ty → Check (Option Ty)) : List (Option Ty) → Check (Option Ty)
  | [some a, some b] => k a b
  | _ => return none

@[inherit_doc ofOne]
def ofThree (k : Ty → Ty → Ty → Check (Option Ty)) : List (Option Ty) → Check (Option Ty)
  | [some a, some b, some c] => k a b c
  | _ => return none

theorem valueOf_child {final : Analysis} (h : a.Settled final (Expr.idsOf es)) {c : Expr}
    (hc : c ∈ es) : final.valueOf c = a.valueOf c :=
  h.consts (Expr.ids_subset_idsOf hc c.id_mem_ids)

theorem checks_literal (engine : EngineTable) (node : Node) (value : Value) :
    ChecksExpr engine (.literal node value) := by
  refine sound_node (checksParts fun c hc => by cases hc) (k := fun _ => do
      fold (.literal node value) value
      return some value.type)
    (Q := fun _ _ r f => r = some value.type ∧ f = { value := some value }) ?_ ?_ rfl
  · rintro types s - hfresh -
    refine (own_fold _ value s).bind fun _ => .pure fun hf => ⟨rfl, ?_⟩
    rw [hf, hfresh]
  · rintro s final r f - - - - - ⟨rfl, rfl⟩
    exact ⟨_, rfl, .literal node value, trivial, fun var h => by cases h⟩

theorem checks_ident (engine : EngineTable) (node : Node) (name : String) :
    ChecksExpr engine (.ident node name) := by
  refine sound_node (checksParts fun c hc => by cases hc)
    (k := fun _ => checkIdent engine (.ident node name) name)
    (fun _ s hinv hfresh _ => own_checkIdent engine _ name s hinv hfresh) ?_ rfl
  · rintro s final r f hs href - - - ⟨hresolve, ⟨var, info, hscope, hinfo, rfl, rfl⟩ | ⟨value, hvalue, rfl, rfl⟩⟩
    · refine ⟨_, rfl, .variable href (hs.vars var info hinfo), href.trans hresolve, fun x hx => ?_⟩
      cases hx
      exact hscope.imp id (fun h => hs.globals h)
    · exact ⟨_, rfl, .engineConstant href hvalue, href.trans hresolve, fun var h => by cases h⟩

theorem checks_binary (engine : EngineTable) (node : Node) (op : BinOp) (lhs rhs : Expr)
    (hl : ChecksExpr engine lhs) (hr : ChecksExpr engine rhs) :
    ChecksExpr engine (.binary node op lhs rhs) := by
  refine sound_node (checksParts ?_) (k := ofTwo (checkBinary (.binary node op lhs rhs) op lhs rhs))
    (Q := fun types s r f => ∀ left right, types = [some left, some right] → ∃ type,
      r = some type ∧ binaryType? op left right = some type ∧ DividesOk s.analysis op rhs ∧ f =
        { value := foldedBinary op (s.analysis.valueOf lhs) (s.analysis.valueOf rhs) }) ?_ ?_ ?_
  · intro c hc
    simp only [Expr.children, mem_cons, not_mem_nil, or_false] at hc
    rcases hc with rfl | rfl
    · exact hl
    · exact hr
  · rintro types s - hfresh -
    unfold ofTwo
    split
    · next left right =>
      refine (own_checkBinary _ op lhs rhs left right s (by rw [hfresh])).weaken ?_
      rintro r f h _ _ ⟨⟩
      rwa [hfresh] at h
    · next h => exact .pure fun left right hty => absurd hty (h left right)
  · intro s final r f hs _ _ htypes _ hQ
    obtain ⟨left, hleft⟩ := htypes lhs (by simp)
    obtain ⟨right, hright⟩ := htypes rhs (by simp)
    obtain ⟨type, rfl, htype, hdivides, rfl⟩ := hQ left right (by simp [Expr.children, hleft, hright])
    have hlhs := valueOf_child hs (c := lhs) (by simp)
    have hrhs := valueOf_child hs (c := rhs) (by simp)
    refine ⟨type, rfl, ?_, fun hop v hv => hdivides hop v (hrhs ▸ hv), fun var h => by cases h⟩
    rw [← hlhs, ← hrhs]
    exact .binary hleft hright htype
  · funext s
    rw [checkExpr]
    simp only [Expr.children, checkExprs, bind_apply, pure_apply, typed]
    cases (checkExpr engine lhs s).1 <;> cases (checkExpr engine rhs (checkExpr engine lhs s).2).1 <;>
      rfl

theorem checks_unary (engine : EngineTable) (node : Node) (op : UnOp) (operand : Expr)
    (ho : ChecksExpr engine operand) : ChecksExpr engine (.unary node op operand) := by
  refine sound_node (checksParts ?_) (k := ofOne (checkUnary (.unary node op operand) op operand))
    (Q := fun types s r f => ∀ type, types = [some type] → r = some type ∧
      unaryApplies op type = true ∧ f =
        { value := foldedUnary op (s.analysis.valueOf operand) }) ?_ ?_ ?_
  · intro c hc
    obtain rfl : c = operand := by simpa [Expr.children] using hc
    exact ho
  · rintro types s - hfresh -
    unfold ofOne
    split
    · next type =>
      refine (own_checkUnary _ op operand type s (by rw [hfresh])).weaken ?_
      rintro r f h _ ⟨⟩
      rwa [hfresh] at h
    · next h => exact .pure fun type hty => absurd hty (h type)
  · intro s final r f hs _ _ htypes _ hQ
    obtain ⟨type, htype⟩ := htypes operand (by simp)
    obtain ⟨rfl, happlies, rfl⟩ := hQ type (by simp [Expr.children, htype])
    refine ⟨type, rfl, ?_, trivial, fun var h => by cases h⟩
    have hvalue := valueOf_child hs (c := operand) (by simp)
    rw [← hvalue]
    exact .unary htype happlies
  · funext s
    rw [checkExpr]
    simp only [Expr.children, checkExprs, bind_apply, pure_apply, typed]
    cases (checkExpr engine operand s).1 <;> rfl

theorem checks_field (engine : EngineTable) (node : Node) (base : Expr) (name : String)
    (hb : ChecksExpr engine base) : ChecksExpr engine (.field node base name) := by
  refine sound_node (checksParts ?_) (k := ofOne fun type => checkField (.field node base name) base type name)
    (Q := fun types s r f => ∀ type, types = [some type] → ∃ offset fieldType,
      s.analysis.structs.field? type name = some (offset, fieldType) ∧ r = some fieldType ∧
      f = { value := foldedField offset (s.analysis.valueOf base) }) ?_ ?_ ?_
  · intro c hc
    obtain rfl : c = base := by simpa [Expr.children] using hc
    exact hb
  · intro types s _ hfresh hnow
    unfold ofOne
    split
    · next type =>
      have htyped (he : s.NoErrors) (hok : s.VarsOk) (v : Value) (hv : s.analysis.valueOf base = some v) :
          v.type = type := by
        obtain ⟨htypes, hbase⟩ := hnow he
        obtain htypes : some type = s.analysis.typeOf base := (cons.inj htypes).1
        exact hasTypedValue (hbase base (.head _)) hok.1 v type hv htypes.symm
      refine (own_checkField _ base type name s (by rw [hfresh]) htyped).weaken ?_
      rintro r f h _ ⟨⟩
      rwa [hfresh] at h
    · next h => exact .pure fun type hty => absurd hty (h type)
  · intro s final r f hs _ _ htypes _ hQ
    obtain ⟨type, htype⟩ := htypes base (by simp)
    obtain ⟨offset, fieldType, hfield, rfl, rfl⟩ := hQ type (by simp [Expr.children, htype])
    refine ⟨fieldType, rfl, ?_, trivial, fun var h => by cases h⟩
    have hvalue := valueOf_child hs (c := base) (by simp)
    rw [← hvalue]
    exact .field htype (hs.structs ▸ hfield)
  · funext s
    rw [checkExpr]
    simp only [Expr.children, checkExprs, bind_apply, pure_apply, typed]
    cases (checkExpr engine base s).1 <;> rfl

theorem checks_conditional (engine : EngineTable) (node : Node) (cond yes no : Expr)
    (hc : ChecksExpr engine cond) (hy : ChecksExpr engine yes) (hn : ChecksExpr engine no) :
    ChecksExpr engine (.conditional node cond yes no) := by
  refine sound_node (checksParts ?_) (k := ofThree (checkConditional (.conditional node cond yes no) cond yes no))
    (Q := fun types s r f => ∀ a b c, types = [some a, some b, some c] →
      a = .int ∧ c = b ∧ r = some b ∧ f =
        { value := foldedChoice (s.analysis.valueOf cond) (s.analysis.valueOf yes)
            (s.analysis.valueOf no) }) ?_ ?_ ?_
  · intro e he
    simp only [Expr.children, mem_cons, not_mem_nil, or_false] at he
    rcases he with rfl | rfl | rfl
    · exact hc
    · exact hy
    · exact hn
  · rintro types s - hfresh -
    unfold ofThree
    split
    · next a b c =>
      refine (own_checkConditional _ cond yes no a b c s (by rw [hfresh])).weaken ?_
      rintro r f h _ _ _ ⟨⟩
      rwa [hfresh] at h
    · next h => exact .pure fun a b c hty => absurd hty (h a b c)
  · intro s final r f hs _ _ htypes _ hQ
    obtain ⟨a, ha⟩ := htypes cond (by simp)
    obtain ⟨b, hb⟩ := htypes yes (by simp)
    obtain ⟨c, hc⟩ := htypes no (by simp)
    obtain ⟨rfl, rfl, rfl, rfl⟩ := hQ a b c (by simp [Expr.children, ha, hb, hc])
    refine ⟨c, rfl, ?_, trivial, fun var h => by cases h⟩
    have hcond := valueOf_child hs (c := cond) (by simp)
    have hyes := valueOf_child hs (c := yes) (by simp)
    have hno := valueOf_child hs (c := no) (by simp)
    rw [← hcond, ← hyes, ← hno]
    exact .conditional ha hb hc
  · funext s
    rw [checkExpr]
    simp only [Expr.children, checkExprs, bind_apply, pure_apply, typed]
    cases (checkExpr engine cond s).1 <;> cases (checkExpr engine yes _).1 <;>
      cases (checkExpr engine no _).1 <;> rfl

/-! ## Calls and assignments -/

theorem argsOk_of_types {args : List Expr} {params : List (Ty × Bool)}
    (hlength : args.length ≤ params.length) (htypes : ∀ e ∈ args, ∃ type, a.typeOf e = some type)
    (h : ArgTypesOk (args.zip (args.map a.typeOf)) params) : ArgsOk a args (params.map Prod.fst) := by
  induction args generalizing params with
  | nil => exact trivial
  | cons arg args ih =>
    cases params with
    | nil => simp at hlength
    | cons param params =>
      obtain ⟨hfirst, hrest⟩ := h
      refine ⟨?_, ih (by simpa using hlength) (fun e he => htypes e (.tail _ he)) hrest⟩
      obtain ⟨type, htype⟩ := htypes arg (.head _)
      unfold ArgOk
      split at hfirst
      · next haction => rwa [if_pos haction]
      · next haction => rw [if_neg haction, htype, hfirst type htype]

theorem required_ofUser (func : FuncId) (f : FuncInfo) : (CallTarget.ofUser func f).required = f.required := by
  simp only [CallTarget.required, CallTarget.ofUser, FuncInfo.required, takeWhile_map, length_map]
  congr 2
  funext p
  show (!p.default.isSome) = p.default.isNone
  cases p.default <;> rfl

theorem checks_call (engine : EngineTable) (node : Node) (name : String) (args : List Expr)
    (ih : ∀ e ∈ args, ChecksExpr engine e) : ChecksExpr engine (.call node name args) := by
  refine sound_node (checksParts ih)
    (k := fun types => checkCall engine (.call node name args) name (args.zip types))
    (Q := fun types s r f => ∃ target, TargetOk engine s.analysis name target ∧
      target.required ≤ (args.zip types).length ∧ (args.zip types).length ≤ target.params.length ∧
      ArgTypesOk (args.zip types) target.params ∧ r = some target.ret ∧
      f = { call := some target.callee }) ?_ ?_ rfl
  · rintro types s - hfresh -
    refine (own_checkCall engine _ name (args.zip types) s).weaken fun r f h => ?_
    rwa [hfresh] at h
  · rintro s final r f hs - hcall htypes - ⟨target, htarget, hrequired, hlength, hargs, rfl, rfl⟩
    have hzip : (args.zip (args.map final.typeOf)).length = args.length := by simp
    rw [Expr.children, hzip] at hrequired hlength
    have hargs := argsOk_of_types hlength htypes hargs
    refine ⟨_, rfl, ?_, trivial, fun var h => by cases h⟩
    rcases htarget with ⟨func, f, hfunc, hdefined, rfl⟩ | ⟨f, hf, rfl⟩
    · rw [← hs.functions] at hfunc
      rw [required_ofUser] at hrequired
      refine .userCall hcall hfunc hdefined hrequired ?_
      simpa [CallTarget.ofUser, Function.comp_def] using hargs
    · refine .engineCall hcall hf ?_
      simpa [CallTarget.ofEngine, Function.comp_def] using hargs

theorem root_mem_parts (e : Expr) : e.root ∈ e.parts := by
  induction e using Expr.inductionOn with
  | field node base name ih =>
    rw [Expr.root]
    exact Expr.mem_parts_iff.mpr (.inr ⟨base, by simp, ih⟩)
  | literal | ident | binary | unary | step | call | assign | conditional =>
    rw [Expr.root]
    · exact Expr.self_mem_parts _
    · simp

theorem isWritable_apply (root : Expr) (s : CheckState) :
    ∃ b, isWritable root s = (b, s) ∧ (b = true → Writable s.analysis root) := by
  cases href : s.analysis.refs.get? root.id with
  | none => exact ⟨false, by simp [isWritable, href], by simp⟩
  | some var =>
    cases hvar : s.analysis.vars[var]? with
    | none => exact ⟨false, by simp [isWritable, href, hvar], by simp⟩
    | some info =>
      refine ⟨!info.isConst, by simp [isWritable, href, hvar], fun h => ?_⟩
      exact ⟨var, info, href, hvar, by simpa using h⟩

theorem sound_checkTarget (h : Sound target.ids (checkExpr engine target) s fun r s' final =>
      ExprChecked engine s target r s' final ∧ ExprRead s final target) :
    Sound target.ids (checkTarget target (checkExpr engine target)) s fun r s' final =>
      (ExprChecked engine s target r s' final ∧ ExprRead s final target) ∧
        target.root.isIdent = true ∧ Writable final target.root := by
  unfold checkTarget
  split
  · exact .fail _ rfl
  · next hroot =>
    refine h.bindLast fun type s1 _ _ => ?_
    cases type with
    | none => exact .pure fun final _ _ _ h => by simp [ExprChecked] at h
    | some type =>
      obtain ⟨b, hb, hwritable⟩ := isWritable_apply target.root s1
      refine .read hb ?_
      cases b with
      | false => exact .fail _ rfl
      | true =>
        refine .pure fun final _ _ _ hchecked hsettled => ⟨hchecked, by simpa using hroot, ?_⟩
        obtain ⟨var, info, href, hinfo, hconst⟩ := hwritable rfl
        refine ⟨var, info, ?_, hsettled.vars var info hinfo, hconst⟩
        rw [hsettled.refs (mem_map_of_mem (root_mem_parts target)), href]

theorem checksParts_target (h : ChecksExpr engine target) :
    ChecksParts engine [target] (do return [← checkTarget target (checkExpr engine target)])
      fun final => target.root.isIdent = true ∧ Writable final target.root := by
  intro s hinv hfresh hnodup
  rw [Expr.idsOf_cons, Expr.idsOf_nil, append_nil] at hfresh hnodup ⊢
  refine (sound_checkTarget (h s hinv hfresh hnodup)).bindLast fun r s1 _ _ => .pure ?_
  rintro final - - - ⟨⟨⟨hstays, type, rfl, hok⟩, hread⟩, hX⟩ -
  refine ⟨⟨hstays, by rw [map_singleton, hok.typeOf], fun e he => ?_⟩, hX⟩
  obtain rfl := mem_singleton.mp he
  exact ⟨⟨type, hok⟩, hread⟩

theorem checksParts_assign {value : Expr} (ht : ChecksExpr engine target)
    (hv : ChecksExpr engine value) :
    ChecksParts engine [target, value] (do
      let a ← checkTarget target (checkExpr engine target)
      let b ← checkExpr engine value
      return [a, b]) fun final => target.root.isIdent = true ∧ Writable final target.root := by
  intro s hinv hfresh hnodup
  rw [Expr.idsOf_cons, Expr.idsOf_cons, Expr.idsOf_nil, append_nil] at hfresh hnodup ⊢
  obtain ⟨hnodup1, hnodup2, hdisjoint⟩ := nodup_append'.mp hnodup
  have htarget := sound_checkTarget
    (ht s hinv (fun id hid => hfresh id (mem_append_left _ hid)) hnodup1)
  refine htarget.bind hdisjoint fun a s1 _ hw => ?_
  have hvalue := hv s1 (hw.inv hinv)
    (hw.fresh (fun id hid => hfresh id (mem_append_right _ hid)) hdisjoint) hnodup2
  refine hvalue.bindLast fun b s2 _ _ => .pure ?_
  rintro final - - - ⟨⟨hstays2, type2, rfl, hok2⟩, hread2⟩ - - ⟨⟨⟨hstays1, type1, rfl, hok1⟩, hread1⟩, hX⟩ -
  rw [hstays1.visible] at hok2
  refine ⟨⟨hstays1.trans hstays2, ?_, fun e he => ?_⟩, hX⟩
  · rw [map_cons, map_singleton, hok1.typeOf, hok2.typeOf]
  · simp only [mem_cons, not_mem_nil, or_false] at he
    rcases he with rfl | rfl
    · exact ⟨⟨type1, hok1⟩, hread1⟩
    · exact ⟨⟨type2, hok2⟩, fun p hp => (hread2 p hp).of_stays hstays1⟩

theorem checks_step (engine : EngineTable) (node : Node) (s : Step) (order : StepOrder) (target : Expr)
    (ht : ChecksExpr engine target) : ChecksExpr engine (.step node s order target) := by
  refine sound_node (checksParts_target ht) (k := ofOne (checkStep target))
    (Q := fun types _ r f => ∀ type, types = [some type] → target.isIdent = true ∧ type = .int ∧
      r = some .int ∧ f = {}) ?_ ?_ ?_
  · rintro types s - hfresh -
    unfold ofOne
    split
    · next type =>
      refine (own_checkStep _ target type s).weaken ?_
      rintro r f h _ ⟨⟩
      rwa [hfresh] at h
    · next h => exact .pure fun type hty => absurd hty (h type)
  · intro s final r f hs _ _ htypes hX hQ
    obtain ⟨type, htype⟩ := htypes target (by simp)
    obtain ⟨hident, rfl, rfl, rfl⟩ := hQ type (by simp [Expr.children, htype])
    refine ⟨.int, rfl, .step hident ?_ htype, trivial, fun var h => by cases h⟩
    have hroot : target.root = target := by
      cases target <;> simp_all [Expr.isIdent, Expr.root]
    exact hroot ▸ hX.2
  · funext st
    rw [checkExpr]
    simp only [bind_apply, pure_apply, typed]
    cases (checkTarget target (checkExpr engine target) st).1 <;> rfl

theorem checks_assign (engine : EngineTable) (node : Node) (op : Option BinOp) (target value : Expr)
    (ht : ChecksExpr engine target) (hv : ChecksExpr engine value) :
    ChecksExpr engine (.assign node op target value) := by
  refine sound_node (checksParts_assign ht hv) (k := ofTwo (checkAssign (.assign node op target value) op value))
    (Q := fun types _ r f => ∀ a b, types = [some a, some b] → r = some a ∧
      AssignOk a b op ∧ f = {}) ?_ ?_ ?_
  · rintro types s - hfresh -
    unfold ofTwo
    split
    · next a b =>
      refine (own_checkAssign _ op value a b s).weaken ?_
      rintro r f h _ _ ⟨⟩
      rwa [hfresh] at h
    · next h => exact .pure fun a b hty => absurd hty (h a b)
  · intro s final r f hs _ _ htypes hX hQ
    obtain ⟨a, ha⟩ := htypes target (by simp)
    obtain ⟨b, hb⟩ := htypes value (by simp)
    obtain ⟨rfl, hop, rfl⟩ := hQ a b (by simp [Expr.children, ha, hb])
    refine ⟨a, rfl, ?_, trivial, fun var h => by cases h⟩
    cases op with
    | none => exact .assign hX.1 hX.2 ha (hop ▸ hb)
    | some op => exact .compound hX.1 hX.2 ha hb hop
  · funext st
    rw [checkExpr]
    simp only [bind_apply, pure_apply, typed]
    cases (checkTarget target (checkExpr engine target) st).1 <;>
      cases (checkExpr engine value _).1 <;> rfl

theorem checksExpr_read (engine : EngineTable) (e : Expr) : ChecksExpr engine e := by
  induction e using Expr.inductionOn with
  | literal node value => exact checks_literal engine node value
  | ident node name => exact checks_ident engine node name
  | binary node op lhs rhs hl hr => exact checks_binary engine node op lhs rhs hl hr
  | unary node op operand ho => exact checks_unary engine node op operand ho
  | step node s order target ht => exact checks_step engine node s order target ht
  | call node name args ih => exact checks_call engine node name args ih
  | assign node op target value ht hv => exact checks_assign engine node op target value ht hv
  | field node base name hb => exact checks_field engine node base name hb
  | conditional node cond yes no hc hy hn =>
    exact checks_conditional engine node cond yes no hc hy hn

theorem checksExpr (engine : EngineTable) (e : Expr) (s : CheckState) (hinv : s.Inv)
    (hfresh : s.Fresh e.ids) (hnodup : e.ids.Nodup) :
    Sound e.ids (checkExpr engine e) s (ExprChecked engine s e) :=
  (checksExpr_read engine e s hinv hfresh hnodup).weaken fun _ _ _ _ _ _ h => h.1

end Check
end Nwscript
