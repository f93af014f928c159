import Nwscript.Proofs.Machine.Computes

/-! # Code of expressions computes their values

The code of an expression runs as the expression is evaluated. Induction on the relation between an
expression and its code: each construct is computed if its parts are. -/

open List
open Option hiding bind_apply

namespace Nwscript
namespace Machine

open Gen Meaning

/-- A call of a function runs as the function does. It finds the arguments, the first one on top, and
room for the result below them, and leaves the result alone. -/
def CallFollows (lines : List Op) (k : Nat) (c : GenContext) (label? : FuncId → Option Label)
    (calls : Calls) (func : FuncId) : Prop :=
  ∀ label info, label? func = some label → c.analysis.functions[func]? = some info →
    ∀ vs, vs.map Value.type = info.params.map FuncParam.type → ∀ slot st q back,
      slot.length = (resultCells c.analysis info).length →
      Follows lines k ⟨place lines label, vs.flatMap Value.cells ++ slot ++ st, q :: back⟩
        (fun v => ⟨q, pushed v ++ st, back⟩) (calls func vs)

structure Site.Ok (S : Site) (label? : FuncId → Option Label) (calls : Calls)
    (callable : FuncId → Prop) : Prop where
  ctx : S.ctx.Ok
  nodup : (marks S.lines).Nodup
  ints : LocalInts S.ctx.analysis S.visible
  placed : Placed S.ctx S.visible S.locals
  consts : ∀ var offset info, S.ctx.globals.offsets.lookup var = some offset →
    S.ctx.analysis.vars[var]? = some info → info.isConst = false
  typed : ∀ func, callable func → CallTyped S.ctx.analysis calls func
  calls : ∀ func, callable func → CallFollows S.lines S.k S.ctx label? calls func

variable {type : Ty} {a : Analysis} {callable : FuncId → Prop} {visible : List VarId} {e : Expr}
  {name : String} {node : Node} {params : List FuncParam}

theorem ne_of_storable (h : a.Storable type) : type ≠ .action ∧ type ≠ .void := by
  have hstorable := h.isStorable
  constructor <;> (rintro rfl; cases hstorable)

def PieceSimple (c : GenContext) (callable : FuncId → Prop) (visible : List VarId) : ExprPiece → Prop
  | .expr e => Usable c.engine c.analysis visible e ∧ Simple c.analysis callable visible e
  | .userArgs params args => (∀ e ∈ args, Usable c.engine c.analysis visible e ∧
      Simple c.analysis callable visible e) ∧ ArgsOk c.analysis args (params.map FuncParam.type) ∧
      (∀ p ∈ params, ∀ v ∈ p.default, v.type = p.type) ∧ ∀ p ∈ params, c.analysis.Storable p.type
  | .engineArgs _ _ => False

theorem PieceSimple.child {ctx : GenContext} {c : Expr}
    (h : PieceSimple ctx callable visible (.expr e)) (hc : c ∈ e.children) :
    PieceSimple ctx callable visible (.expr c) :=
  ⟨h.1.child hc, h.2.child hc⟩

theorem PieceSimple.args {c : GenContext} (hc : c.Ok) {args : List Expr} {func : FuncId}
    {info : FuncInfo} (h : PieceSimple c callable visible (.expr (.call node name args)))
    (hcall : c.analysis.calls.get? node.id = some (.user func))
    (hinfo : c.analysis.functions[func]? = some info) :
    PieceSimple c callable visible (.userArgs info.params args) := by
  obtain ⟨_, _, hrule, -⟩ := (usable_iff.mp h.1).1
  have hsig := hc.signatures func info hinfo
  cases hrule with
  | engineCall hcall' _ _ =>
    cases hcall.symm.trans hcall'
  | userCall hcall' hinfo' _ _ hargs =>
    obtain rfl := Callee.user.inj (Option.some.inj (hcall.symm.trans hcall'))
    cases hinfo.symm.trans hinfo'
    exact ⟨fun e he => h.child he, hargs, hsig.defaults, hsig.params⟩

def Site.PieceComputes (S : Site) (calls : Calls) : ExprPiece → Int → List Op → Prop
  | .expr e, d, ops => S.Computes d [] ops (eval S.ctx.engine S.ctx.analysis calls e) pushed
  | .userArgs params args, d, ops =>
    S.Computes d [] ops (evalArgs S.ctx.engine S.ctx.analysis calls params args)
      (fun vs => vs.flatMap Value.cells)
  | .engineArgs _ _, _, _ => True

section Ok

variable {S : Site} {label? : FuncId → Option Label} {calls : Calls} {callable : FuncId → Prop}
  (hS : S.Ok label? calls callable)

include hS

theorem Site.Ok.gives (hu : Usable S.ctx.engine S.ctx.analysis S.visible e)
    (hs : Simple S.ctx.analysis callable S.visible e) (htype : S.ctx.analysis.typeOf e = some type) :
    S.Gives (eval S.ctx.engine S.ctx.analysis calls e) fun v => HasType v type :=
  ensures_eval hS.ctx.vars hS.ctx.signatures hS.ints hS.typed hu hs htype

variable {var : VarId} {s : Step} {slot : Slot} {node' : Node}

theorem Site.Ok.not_addressed {d : Int} {F : List Cell}
    (hshows : Shows S.ctx.analysis S.visible S.locals d F) {info : VarInfo}
    (hinfo : S.ctx.analysis.vars[var]? = some info) (hkind : info.kind = .global)
    (hconst : info.isConst = true) (slot : Slot) : slotOf S.ctx S.locals var ≠ some slot := by
  intro hslot
  unfold slotOf at hslot
  cases hl : S.locals.lookup var with
  | some bottom => exact hshows.kind var bottom info hl hinfo hkind
  | none =>
    rw [hl, map_none, none_or] at hslot
    obtain ⟨offset, hoff, -⟩ := map_eq_some_iff.mp hslot
    rw [hS.consts var offset info hoff hinfo] at hconst
    cases hconst

theorem Site.Ok.place_cases (hs : Simple S.ctx.analysis callable S.visible e) {part : Part}
    (hpart : placeOf S.ctx.analysis e = some part) :
    (part.var ∈ S.visible ∧ part.offset = 0 ∧ part.type = .int ∧
      ∃ node name, e = .ident node name ∧ S.ctx.analysis.refs.get? node.id = some part.var) ∨
    ∃ info, S.ctx.analysis.vars[part.var]? = some info ∧ info.kind = .global ∧ info.isConst = true := by
  induction e using Expr.inductionOn generalizing part with
  | ident node name =>
    simp only [placeOf, bind_eq_bind] at hpart
    obtain ⟨var, href, hpart⟩ := bind_eq_some_iff.mp hpart
    obtain ⟨info, hinfo, hpart⟩ := bind_eq_some_iff.mp hpart
    cases hpart
    rcases hs _ (Expr.self_mem_parts _) var href with hvar | hglobal
    · obtain ⟨info', hinfo', -, hint⟩ := hS.ints var hvar
      cases hinfo.symm.trans hinfo'
      exact .inl ⟨hvar, rfl, hint, node, name, rfl, href⟩
    · exact .inr hglobal
  | field node base name ih =>
    simp only [placeOf, bind_eq_bind] at hpart
    obtain ⟨inner, hinner, hpart⟩ := bind_eq_some_iff.mp hpart
    obtain ⟨⟨offset, type⟩, hfield, hpart⟩ := bind_eq_some_iff.mp hpart
    cases hpart
    rcases ih (hs.child (by simp)) hinner with ⟨-, -, hint, -⟩ | hglobal
    · rw [hint] at hfield
      cases hfield
    · exact .inr hglobal
  | _ => cases hpart

theorem Site.Ok.target (hu : Usable S.ctx.engine S.ctx.analysis S.visible e)
    (hs : Simple S.ctx.analysis callable S.visible e) (hw : Writable S.ctx.analysis e.root)
    {part : Part} (hpart : placeOf S.ctx.analysis e = some part) :
    part.var ∈ S.visible ∧ part.offset = 0 ∧ part.type = .int ∧
      ∃ node name, e = .ident node name ∧ S.ctx.analysis.refs.get? node.id = some part.var := by
  rcases hS.place_cases hs hpart with hvar | ⟨info, hinfo, -, hconst⟩
  · exact hvar
  · obtain ⟨var, info', href, hinfo', hconst'⟩ := hw
    cases (placeOk_of_placeOf hS.ctx hu hpart).root.symm.trans href
    cases hinfo.symm.trans hinfo'
    cases hconst.symm.trans hconst'

theorem Site.Ok.gives_args {args : List Expr}
    (h : PieceSimple S.ctx callable S.visible (.userArgs params args)) :
    S.Gives (evalArgs S.ctx.engine S.ctx.analysis calls params args)
      fun vs => vs.map Value.type = params.map FuncParam.type := by
  obtain ⟨hall, hargs, hdefaults, hstorable⟩ := h
  apply ensures_evalArgs hdefaults (fun p hp => (ne_of_storable (hstorable p hp)).1) hargs
  exact fun arg harg type htype => hS.gives (hall arg harg).1 (hall arg harg).2 htype

theorem Site.Ok.step_target {order : StepOrder} {target : Expr}
    (h : PieceSimple S.ctx callable S.visible (.expr (.step node s order target)))
    (href : S.ctx.analysis.refs.get? target.id = some var) :
    ∃ node' name, target = .ident node' name ∧ var ∈ S.visible := by
  have htarget := h.child (c := target) (by simp)
  obtain ⟨_, _, hrule, -⟩ := (usable_iff.mp h.1).1
  cases hrule with
  | step hident hwritable _ =>
    cases target with
    | ident node' name =>
      obtain ⟨part, hpart⟩ := placeOf_isSome hS.ctx htarget.1 hident href
      obtain ⟨hvar, -, -, -⟩ := hS.target htarget.1 htarget.2 hwritable hpart
      cases (placeOk_of_placeOf hS.ctx htarget.1 hpart).root.symm.trans href
      exact ⟨node', name, rfl, hvar⟩
    | _ => cases hident

/-! ## Constructs -/

variable {d : Int}

theorem Site.Ok.computes_constant (hu : Usable S.ctx.engine S.ctx.analysis S.visible e)
    (hs : Simple S.ctx.analysis callable S.visible e) {v : Value}
    (hv : S.ctx.analysis.valueOf e = some v) :
    S.Computes d [] (constantOps v) (eval S.ctx.engine S.ctx.analysis calls e) pushed := by
  intro p back σ F hloc _ hσ
  rw [eval_of_valueOf hS.ctx.vars hS.ints hu hs hv hσ]
  exact reaches_constantOps _ back v hloc

theorem Site.Ok.eval_ident (href : S.ctx.analysis.refs.get? node.id = some var)
    (hvar : var ∈ S.visible) (σ : Store) :
    eval S.ctx.engine S.ctx.analysis calls (.ident node name) σ = .done (some (.int (σ var)), σ) := by
  rw [eval, href]
  exact load_apply hS.ints hvar σ

theorem Site.Ok.computes_ident (href : S.ctx.analysis.refs.get? node.id = some var)
    (hvar : var ∈ S.visible) (haddr : Addresses S.ctx S.locals d var 0 slot) :
    S.Computes d [] [loadOp S.ctx slot d 0 cellSize]
      (eval S.ctx.engine S.ctx.analysis calls (.ident node name)) pushed := by
  rw [eval, href]
  exact computes_load hS.ints hvar haddr

theorem Site.Ok.eval_step {order : StepOrder} (href : S.ctx.analysis.refs.get? node'.id = some var)
    (hvar : var ∈ S.visible) (σ : Store) :
    eval S.ctx.engine S.ctx.analysis calls (.step node s order (.ident node' name)) σ =
      .done (some (.int (if order = .stepFirst then stepped s (σ var) else σ var)),
        σ.set var (stepped s (σ var))) := by
  have htarget : targetVar? S.ctx.analysis (.ident node' name) = some var := href
  rw [eval, bind_apply, hS.eval_ident href hvar, htarget]
  cases s <;> cases order <;> rfl

theorem Site.Ok.computes_stepFirst (href : S.ctx.analysis.refs.get? node'.id = some var)
    (hvar : var ∈ S.visible) (haddr : Addresses S.ctx S.locals d var 0 slot) :
    S.Computes d [] ([stepOp S.ctx s slot d] ++ [loadOp S.ctx slot d 0 cellSize])
      (eval S.ctx.engine S.ctx.analysis calls (.step node s .stepFirst (.ident node' name))) pushed := by
  intro p back σ F hloc hshows hσ
  rw [located_append, located_cons] at hloc
  rw [hS.eval_step href hvar]
  have hstep := runs_stepOp back σ hloc.1.1 hshows hvar haddr
  obtain ⟨bottom, i, rfl, hi, hfits, hoff⟩ := hshows.slot hvar haddr
  have hnew : (σ.set var (stepped s (σ var))) var = stepped s (σ var) := if_pos rfl
  have hcell : (stackOf F (σ.set var (stepped s (σ var))))[i]? = some (.int (stepped s (σ var))) := by
    rw [getElem?_stackOf hi, Cell.read, hnew]
  have hload := apply_copyTop hfits hoff hcell
  exact (hstep.trans (runs_instr (located_cons.mp hloc.2).1 (by simp) hload)).reaches

theorem Site.Ok.computes_valueFirst (href : S.ctx.analysis.refs.get? node'.id = some var)
    (hvar : var ∈ S.visible) (haddr : Addresses S.ctx S.locals d var 0 slot)
    (haddr' : Addresses S.ctx S.locals (d + cellSize) var 0 slot) :
    S.Computes d [] ([loadOp S.ctx slot d 0 cellSize] ++ [stepOp S.ctx s slot (d + cellSize)])
      (eval S.ctx.engine S.ctx.analysis calls (.step node s .valueFirst (.ident node' name)))
      pushed := by
  intro p back σ F hloc hshows hσ
  rw [located_append] at hloc
  rw [hS.eval_step href hvar]
  have hload := computes_load hS.ints hvar haddr p back σ F hloc.1 hshows hσ
  rw [load_apply hS.ints hvar] at hload
  have hpush : Shows S.ctx.analysis S.visible S.locals (d + cellSize) _ :=
    hshows.push [.int (σ var)] (by simp)
  have hstep := runs_stepOp back σ (located_cons.mp hloc.2).1 hpush hvar haddr'
  exact Reaches.trans hload hstep.reaches

omit hS in
theorem computes_assign {value : Expr} (href : S.ctx.analysis.refs.get? node'.id = some var)
    (hvar : var ∈ S.visible) {new : List Op} {d₁ : Int}
    (haddr : Addresses S.ctx S.locals d₁ var 0 slot) (hd : d₁ = d + cellSize)
    (hnew : S.Computes d [] new (eval S.ctx.engine S.ctx.analysis calls value) pushed)
    (hint : S.Gives (eval S.ctx.engine S.ctx.analysis calls value) fun v => HasType v .int) :
    S.Computes d [] (new ++ [storeOp S.ctx slot d₁ 0 cellSize])
      (eval S.ctx.engine S.ctx.analysis calls (.assign node none (.ident node' name) value)) pushed := by
  have htarget : targetVar? S.ctx.analysis (.ident node' name) = some var := href
  rw [eval, htarget]
  apply hnew.seq hint
  intro v hv p back σ F hloc hshows hσ
  obtain ⟨n, rfl⟩ := hv.exists_int
  exact computes_store hvar haddr hd hv p back σ F hloc hshows hσ

theorem Site.Ok.computes_compound {op : BinOp} {value : Expr}
    (href : S.ctx.analysis.refs.get? node'.id = some var) (hvar : var ∈ S.visible) {right : List Op}
    {i : Instr} {d' : Int} (haddr : Addresses S.ctx S.locals d var 0 slot) (hright : S.Computes (d +
      cellSize) [] right (eval S.ctx.engine S.ctx.analysis calls value) pushed)
    (htype : S.Gives (eval S.ctx.engine S.ctx.analysis calls value) fun v => HasType v type)
    (hop : binaryType? op .int type = some .int)
    (hi : binaryInstr? S.ctx.analysis op .int type = some i)
    (haddr' : Addresses S.ctx S.locals d' var 0 slot) (hd : d' = d + cellSize) : S.Computes d []
      ([loadOp S.ctx slot d 0 cellSize] ++ right ++ [Op.instr i] ++ [storeOp S.ctx slot d' 0 cellSize])
      (eval S.ctx.engine S.ctx.analysis calls (.assign node (some op) (.ident node' name) value))
      pushed := by
  have htarget : targetVar? S.ctx.analysis (.ident node' name) = some var := href
  have hload : S.Computes d [] _ (eval S.ctx.engine S.ctx.analysis calls (.ident node' name)) pushed :=
    hS.computes_ident href hvar haddr
  have hloaded : S.Gives (eval S.ctx.engine S.ctx.analysis calls (.ident node' name))
      fun v => HasType v .int := by
    intro σ hσ v σ' h
    rw [hS.eval_ident href hvar] at h
    obtain ⟨rfl, rfl⟩ := Prod.mk.inj (Outcome.done.inj h)
    exact ⟨rfl, hσ⟩
  rw [eval, htarget, append_assoc, append_assoc]
  apply hload.seq hloaded
  intro old hold
  obtain ⟨m, rfl⟩ := hold.exists_int
  apply (hright.under _ (by simp [pushed, Value.cells])).seq htype
  intro w hw
  apply (computes_binary hold hw hi).seq (ensures_binary hold hw hop)
  intro new hnew p back σ F hloc hshows hσ
  obtain ⟨n, rfl⟩ := hnew.exists_int
  exact computes_store hvar haddr' hd hnew p back σ F hloc hshows hσ

omit hS in
theorem computes_field {base : Expr} {baseType : Ty} {offset : Int} {value : List Op}
    (hfield : S.ctx.analysis.structs.field? baseType name = some (offset, type))
    (hbase : S.Computes d [] value (eval S.ctx.engine S.ctx.analysis calls base) pushed)
    (htype : S.Gives (eval S.ctx.engine S.ctx.analysis calls base) fun v => HasType v baseType) :
    S.Computes d []
      (value ++ [Op.instr (.destruct (.ofInt (S.ctx.analysis.sizeOf baseType)) (.ofInt offset)
        (.ofInt (S.ctx.analysis.sizeOf type)))])
      (eval S.ctx.engine S.ctx.analysis calls (.field node base name)) pushed := by
  rw [eval]
  apply hbase.seq htype
  intro v hv p back σ F hloc _ _
  rw [located_cons] at hloc
  obtain ⟨rfl, x, y, z, rfl⟩ := vector_of_field hv hfield
  obtain ⟨c, hc, happly⟩ := apply_destruct (x := x) (y := y) (z := z) hfield (stackOf F σ)
  have hcomponent : component? S.ctx.analysis name (some (.vector x y z)) = some (.float c) := by
    rw [component?, hfield, Option.bind_some, hc]
    rfl
  rw [hcomponent]
  exact (runs_instr hloc.1 (by simp) happly).reaches

theorem Site.Ok.computes_call {args : List Expr} {func : FuncId} {info : FuncInfo} {label : Label}
    {push : List Op} (hcall : S.ctx.analysis.calls.get? node.id = some (.user func))
    (hinfo : S.ctx.analysis.functions[func]? = some info)
    (hret : info.ret = .int ∨ info.ret = .void) (hcallable : callable func)
    (hlabel : label? func = some label)
    (hargs : S.Computes (d + cellSize * (resultCells S.ctx.analysis info).length) [] push
      (evalArgs S.ctx.engine S.ctx.analysis calls info.params args) fun vs => vs.flatMap Value.cells)
    (htypes : S.Gives (evalArgs S.ctx.engine S.ctx.analysis calls info.params args) fun vs =>
      vs.map Value.type = info.params.map FuncParam.type) : S.Computes d []
      (reserveOps (resultCells S.ctx.analysis info) ++ push ++ [Op.jump .call label])
      (eval S.ctx.engine S.ctx.analysis calls (.call node name args)) pushed := by
  intro p back σ F hloc hshows hσ
  rw [located_append, located_append, located_cons, length_append, ← Nat.add_assoc] at hloc
  obtain ⟨⟨hreserve, hpush⟩, hjump, -⟩ := hloc
  obtain ⟨slot, hslot, hreserved⟩ :=
    reaches_reserveOps hret (stackOf F σ) back hreserve
  rw [eval, hcall]
  dsimp only
  rw [hinfo]
  dsimp only
  apply Follows.from hreserved
  have hrun := hargs.under (d := d) slot (by rw [hslot]) _ back σ F hpush hshows hσ
  rw [bind_apply]
  apply hrun.bind
  rintro ⟨vs, σ'⟩ hvs
  obtain ⟨hmap, hσ'⟩ := htypes σ hσ vs σ' hvs
  apply Follows.from (runs_call hjump).reaches
  apply (hS.calls func hcallable label info hlabel hinfo vs hmap slot (stackOf F σ') _ back hslot).bind
  intro v _
  rw [length_append, length_append, length_singleton, ← Nat.add_assoc, ← Nat.add_assoc]
  exact Reaches.refl _

omit hS in
theorem computes_default {p : FuncParam} {v : Value} {later : List Op} (hp : p.default = some v)
    {Q : List Value → Prop}
    (hlater : S.Computes d [] later (evalArgs S.ctx.engine S.ctx.analysis calls params [])
      fun vs => vs.flatMap Value.cells)
    (hgives : S.Gives (evalArgs S.ctx.engine S.ctx.analysis calls params []) Q) :
    S.Computes d [] (later ++ constantOps v)
      (evalArgs S.ctx.engine S.ctx.analysis calls (p :: params) []) fun vs => vs.flatMap Value.cells := by
  rw [evalArgs] at hlater hgives ⊢
  rw [defaultArgs, hp]
  apply hlater.seq hgives
  intro vs _ p back σ F hloc _ _
  have hrun := reaches_constantOps (vs.flatMap Value.cells ++ stackOf F σ) back v hloc
  rw [← append_assoc, ← flatMap_cons] at hrun
  exact hrun

omit hS in
theorem computes_arg {p : FuncParam} {arg : Expr} {args : List Expr} {later value : List Op} {d₁ : Int}
    (hlater : S.Computes d [] later (evalArgs S.ctx.engine S.ctx.analysis calls params args)
      fun vs => vs.flatMap Value.cells)
    (htypes : S.Gives (evalArgs S.ctx.engine S.ctx.analysis calls params args) fun vs =>
      d₁ = d + cellSize * (vs.flatMap Value.cells).length)
    (hvalue : S.Computes d₁ [] value (eval S.ctx.engine S.ctx.analysis calls arg) pushed)
    (htype : S.Gives (eval S.ctx.engine S.ctx.analysis calls arg) fun v => HasType v type)
    (hvoid : type ≠ .void) : S.Computes d [] (later ++ value)
      (evalArgs S.ctx.engine S.ctx.analysis calls (p :: params) (arg :: args))
      fun vs => vs.flatMap Value.cells := by
  rw [evalArgs]
  apply hlater.seq htypes
  intro vs hd
  apply (hvalue.under _ hd).last htype
  intro v hv
  obtain ⟨w, rfl, -⟩ := hv.exists_value hvoid
  have hpure : S.Computes d ((w :: vs).flatMap Value.cells) [] (pure (w :: vs))
      (fun vs => vs.flatMap Value.cells) := computes_pure _
  exact hpure

end Ok

/-! ## Expressions -/

theorem shortcut?_eq_none {op : BinOp} (hand : op ≠ .logAnd) (hor : op ≠ .logOr) (x : Option Value) :
    shortcut? op x = none := by
  cases hx : shortcut? op x with
  | none => rfl
  | some v =>
    rcases (shortcut?_eq_some hx).1 with h | h
    · exact absurd h hand
    · exact absurd h hor

theorem pushed_length {v : Option Value} (h : HasType v type) :
    cellSize * (pushed v).length = a.sizeOf type := by
  cases v with
  | none =>
    obtain rfl : type = .void := h
    rfl
  | some v =>
    obtain rfl : v.type = type := h
    cases v <;> rfl

theorem cells_length {vs : List Value} (h : vs.map Value.type = params.map FuncParam.type) :
    cellSize * (vs.flatMap Value.cells).length = (params.map fun p => a.sizeOf p.type).sum := by
  induction vs generalizing params with
  | nil =>
    cases params with
    | nil => rfl
    | cons p ps => cases h
  | cons v vs ih =>
    cases params with
    | nil => cases h
    | cons p ps =>
      obtain ⟨hv, hvs⟩ := List.cons.inj h
      have hsize : cellSize * v.cells.length = a.sizeOf p.type := pushed_length (v := some v) hv
      have hrest := ih hvs
      simp only [flatMap_cons, length_append, map_cons, sum_cons]
      rw [← hrest, ← hsize]
      simp only [cellSize]
      omega

/-- **The code of an expression computes its value.** -/
theorem computes_exprCode {lines : List Op} {k : Nat} {Γ : CodeEnv} {f : Frame}
    {locals : List (VarId × Int)} {calls : Calls}
    (hS : (Site.mk lines k Γ.ctx visible locals).Ok Γ.func calls callable) {piece : ExprPiece}
    {d d' : Int} {ops : List Op} (h : ExprCode Γ f locals piece d ops d')
    (hsimple : PieceSimple Γ.ctx callable visible piece) :
    (Site.mk lines k Γ.ctx visible locals).PieceComputes calls piece d ops := by
  induction h with
  | constant hv => exact hS.computes_constant hsimple.1 hsimple.2 hv
  | loadVar href hinfo haddr =>
    rcases hsimple.2 _ (Expr.self_mem_parts _) _ href with hvar | ⟨info', hinfo', hkind, hconst⟩
    · obtain ⟨info', hinfo', -, hint⟩ := hS.ints _ hvar
      cases hinfo.symm.trans hinfo'
      rw [hint]
      exact hS.computes_ident href hvar haddr
    · intro p back σ F _ hshows _
      exact absurd haddr.found (hS.not_addressed hshows hinfo' hkind hconst _)
  | @shortCircuit node op lhs rhs d left right onward join hop hl hr _ _ ihl ihr =>
    have hlhs := hsimple.child (c := lhs) (by simp)
    have hrhs := hsimple.child (c := rhs) (by simp)
    obtain ⟨type, htype⟩ := hsimple.1.typeOf_isSome
    obtain ⟨leftType, rightType, htl, htr, hresult⟩ := Usable.binary hsimple.1 htype
    obtain ⟨rfl, rfl, -⟩ := binaryType?_logical hop hresult
    have hrun := computes_shortCircuit hS.nodup hop onward join (ihl hlhs)
      (hS.gives hlhs.1 hlhs.2 htl) (ihr hrhs) (hS.gives hrhs.1 hrhs.2 htr)
    rw [Site.PieceComputes, eval]
    exact hrun
  | @binary node op lhs rhs d d₁ d₂ d' left right leftType rightType i hand hor hl hr htl htr hi
      heffect ihl ihr =>
    have hlhs := hsimple.child (c := lhs) (by simp)
    have hrhs := hsimple.child (c := rhs) (by simp)
    rw [Site.PieceComputes, eval, append_assoc]
    apply (ihl hlhs).seq (hS.gives hlhs.1 hlhs.2 htl)
    intro x hx
    rw [shortcut?_eq_none hand hor]
    have hd := ExprCode.size hS.ctx hS.placed hl hlhs.1 leftType htl
    have hunder := sub_eq_iff_eq_add'.mp (hd.trans (pushed_length hx).symm)
    apply ((ihr hrhs).under _ hunder).seq (hS.gives hrhs.1 hrhs.2 htr)
    intro y hy
    exact computes_binary hx hy hi
  | @unary node op operand d d' value type hvalue htype ih =>
    have hoperand := hsimple.child (c := operand) (by simp)
    rw [Site.PieceComputes, eval]
    apply (ih hoperand).seq (hS.gives hoperand.1 hoperand.2 htype)
    intro x hx
    obtain ⟨_, _, hrule, -⟩ := (usable_iff.mp hsimple.1).1
    cases hrule with
    | unary htype' happlies =>
      cases htype.symm.trans htype'
      exact computes_unary hx happlies
  | @stepFirst node s target var slot d href haddr =>
    obtain ⟨node', name, rfl, hvar⟩ := hS.step_target hsimple href
    exact hS.computes_stepFirst href hvar haddr
  | @valueFirst node s target var slot d href haddr haddr' =>
    obtain ⟨node', name, rfl, hvar⟩ := hS.step_target hsimple href
    exact hS.computes_valueFirst href hvar haddr haddr'
  | @userCall node name args func info label d d₁ push hcall hinfo hlabel hargs ih =>
    obtain ⟨func', info', hcall', hinfo', hret, hcallable⟩ := hsimple.2 _ (Expr.self_mem_parts _)
    obtain rfl := Callee.user.inj (Option.some.inj (hcall.symm.trans hcall'))
    cases hinfo.symm.trans hinfo'
    have hall := hsimple.args hS.ctx hcall hinfo
    exact hS.computes_call hcall hinfo hret hcallable hlabel (ih hall) (hS.gives_args hall)
  | engineCall hcall _ _ _ =>
    obtain ⟨func, info, huser, -⟩ := hsimple.2 _ (Expr.self_mem_parts _)
    cases hcall.symm.trans huser
  | @assign node target value part slot d d₁ new hpart hnew haddr ih =>
    have hvalue := hsimple.child (c := value) (by simp)
    have htarget := hsimple.child (c := target) (by simp)
    obtain ⟨_, _, hrule, -⟩ := (usable_iff.mp hsimple.1).1
    cases hrule with
    | assign _ hwritable ht hv =>
      obtain ⟨var, offset, partType⟩ := part
      have htype := (placeOk_of_placeOf hS.ctx htarget.1 hpart).type
      obtain ⟨hvar, rfl, rfl, node', name, rfl, href⟩ := hS.target htarget.1 htarget.2 hwritable hpart
      cases ht.symm.trans htype
      have hd := ExprCode.size hS.ctx hS.placed hnew hvalue.1 .int hv
      exact computes_assign href hvar haddr (sub_eq_iff_eq_add'.mp hd) (ih hvalue)
        (hS.gives hvalue.1 hvalue.2 hv)
  | @compound node op target value part slot d d₁ d' right type i hpart haddr hright htype hi heffect
      haddr' ih =>
    have hvalue := hsimple.child (c := value) (by simp)
    have htarget := hsimple.child (c := target) (by simp)
    obtain ⟨_, _, hrule, hresult, -⟩ := (usable_iff.mp hsimple.1).1
    cases hrule with
    | compound _ hwritable ht hv hop =>
      obtain ⟨var, offset, partType⟩ := part
      have hint := (placeOk_of_placeOf hS.ctx htarget.1 hpart).type
      have hcode : ExprCode Γ f locals (.expr (.assign node (some op) target value)) d _ d' :=
        .compound hpart haddr hright htype hi heffect haddr'
      have hd := ExprCode.size hS.ctx hS.placed hcode hsimple.1 _ hresult
      obtain ⟨hvar, rfl, rfl, node', name, rfl, href⟩ := hS.target htarget.1 htarget.2 hwritable hpart
      cases ht.symm.trans hint
      cases htype.symm.trans hv
      exact hS.computes_compound href hvar haddr (ih hvalue) (hS.gives hvalue.1 hvalue.2 htype) hop hi
        haddr' (sub_eq_iff_eq_add'.mp hd)
  | @fieldOfVariable node base name part slot d hpart haddr =>
    intro p back σ F _ hshows _
    rcases hS.place_cases hsimple.2 hpart with ⟨-, -, -, _, _, heq, -⟩ | ⟨info, hinfo, hkind, hconst⟩
    · cases heq
    · exact absurd haddr.found (hS.not_addressed hshows hinfo hkind hconst _)
  | @fieldOfValue node base name baseType type offset d d₁ value htype hfield hvalue ih =>
    have hbase := hsimple.child (c := base) (by simp)
    exact computes_field hfield (ih hbase) (hS.gives hbase.1 hbase.2 htype)
  | @conditional node cond yes no d d' test first second other join hc hy hn _ _ ihc ihy ihn =>
    have hcond := hsimple.child (c := cond) (by simp)
    have hyes := hsimple.child (c := yes) (by simp)
    have hno := hsimple.child (c := no) (by simp)
    have hint : Γ.ctx.analysis.typeOf cond = some .int := by
      obtain ⟨_, _, hrule, -⟩ := (usable_iff.mp hsimple.1).1
      cases hrule with
      | conditional hint _ _ => exact hint
    have hrun := computes_conditional hS.nodup other join (ihc hcond)
      (hS.gives hcond.1 hcond.2 hint) (ihy hyes) (ihn hno)
    rw [Site.PieceComputes, eval]
    exact hrun
  | noArgs =>
    intro p back σ F _ _ _
    rw [evalArgs]
    exact Reaches.refl _
  | @default p params v d d₁ later hp htype hlater ih =>
    obtain ⟨-, -, hdefaults, hstorable⟩ := hsimple
    have hrest : PieceSimple Γ.ctx callable visible (.userArgs params []) :=
      ⟨by simp, trivial, fun q hq => hdefaults q (.tail _ hq),
        fun q hq => hstorable q (.tail _ hq)⟩
    exact computes_default hp (ih hrest) (hS.gives_args hrest)
  | @arg p params arg args d d₁ later value hlater hvalue ih ihv =>
    obtain ⟨hall, ⟨harg, hargs⟩, hdefaults, hstorable⟩ := hsimple
    obtain ⟨haction, hvoid⟩ := ne_of_storable (hstorable p (.head _))
    rw [ArgOk, if_neg haction] at harg
    have hrest : PieceSimple Γ.ctx callable visible (.userArgs params args) :=
      ⟨fun e he => hall e (.tail _ he), hargs,
        fun q hq => hdefaults q (.tail _ hq),
        fun q hq => hstorable q (.tail _ hq)⟩
    have hself := hall arg (.head _)
    have hd := ExprCode.size hS.ctx hS.placed hlater fun e he => (hrest.1 e he).1
    refine computes_arg (ih hrest) (fun σ hσ vs σ' hvs => ?_) (ihv hself)
      (hS.gives hself.1 hself.2 harg) hvoid
    obtain ⟨htypes, hσ'⟩ := hS.gives_args hrest σ hσ vs σ' hvs
    exact ⟨sub_eq_iff_eq_add'.mp (hd.trans (cells_length htypes).symm), hσ'⟩
  | noEngineArgs => exact hsimple.elim
  | engineArg => exact hsimple.elim
  | action => exact hsimple.elim

end Machine
end Nwscript
