import Nwscript.Proofs.Code.Accepted

/-! # Defaults of parameters

However often a function is declared, its defaults stand at the end of its parameters, and each is the
first one declared for its place. Every call passes at least the parameters before them. -/

open List Option

namespace Nwscript

/-! ## Required parameters -/

theorem FuncInfo.required_le_iff {f : FuncInfo} (h : Trails (f.params.map fun p => p.default.isSome))
    {i : Nat} {p : FuncParam} (hp : f.params[i]? = some p) :
    f.required ≤ i ↔ p.default.isSome = true := by
  constructor
  · intro hle
    refine Gen.isSome_of_required h hle p ?_
    obtain ⟨hlt, rfl⟩ := List.getElem?_eq_some_iff.mp hp
    rw [drop_eq_getElem_cons hlt]
    exact .head _
  · intro hsome
    by_contra hlt
    have hmem : p ∈ f.params.takeWhile fun p => p.default.isNone := by
      rw [← takeWhile_append_dropWhile (p := fun p => p.default.isNone) (l := f.params),
        getElem?_append_left (Nat.not_le.mp hlt)] at hp
      exact mem_of_getElem? hp
    have hnone := mem_takeWhile_imp hmem
    rw [isNone_iff_eq_none.mp hnone] at hsome
    cases hsome

theorem FuncInfo.required_eq_length_filter {f : FuncInfo}
    (h : Trails (f.params.map fun p => p.default.isSome)) :
    f.required = (f.params.filter fun p => p.default.isNone).length := by
  unfold FuncInfo.required
  generalize f.params = params at h
  induction params with
  | nil => rfl
  | cons p params ih =>
    obtain ⟨hall, hrest⟩ := pairwise_cons.mp h
    cases hp : p.default with
    | none => simpa [hp] using ih hrest
    | some v =>
      have hnone : ∀ q ∈ params, ¬ q.default.isNone = true := fun q hq hnone => by
        have hsome := hall _ (List.mem_map_of_mem hq) (by simp [hp])
        rw [isNone_iff_eq_none.mp hnone] at hsome
        cases hsome
      rw [takeWhile_cons_of_neg (by simp [hp]), filter_cons_of_neg (by simp [hp]),
        filter_eq_nil_iff.mpr hnone]

namespace Accepted

variable {engine : EngineTable} {program : Program}

theorem nodeOk (h : Accepted engine program) {e : Expr} (he : e ∈ program.exprs) :
    NodeOk engine (check engine program).analysis e := by
  obtain ⟨item, hitem, he⟩ := mem_flatMap.mp he
  obtain ⟨top, htop, hpart⟩ := mem_flatMap.mp he
  suffices husable : ∃ visible, Usable engine (check engine program).analysis visible top by
    obtain ⟨visible, husable⟩ := husable
    exact husable.ok e hpart
  cases item with
  | function decl body =>
    obtain ⟨index, hindex⟩ := getElem?_of_mem hitem
    obtain ⟨f, -, hok⟩ := h.functionOk hindex
    obtain ⟨visible, -, hbody⟩ := hok.scope
    obtain ⟨s, hs, htop⟩ := Stmt.mem_exprsOf.mp htop
    obtain ⟨inner, hinner⟩ := hbody.of_mem hs
    exact hinner.usable htop
  | global decl =>
    obtain ⟨d, hd, hinit⟩ := mem_flatMap.mp htop
    obtain ⟨var, info, hdeclares, -⟩ := h.programOk.global decl hitem d hd
    exact ⟨[], (hdeclares.init top (mem_toList.mp hinit)).toUsable⟩
  | _ => cases htop

/-- **Defaults stand at the end, and every call finds an argument or a default for each parameter.**
A default has the type of its parameter and is the first one declared for its place. -/
theorem defaults_trail (h : Accepted engine program) :
    (∀ (func : FuncId) f, (check engine program).analysis.functions[func]? = some f →
      (∀ (i : Nat) p, f.params[i]? = some p → (f.required ≤ i ↔ p.default.isSome = true) ∧
        (∀ v, p.default = some v → v.type = p.type) ∧ (program.firstDefault f.name i).map
          (Check.evalEarly engine (Check.earlyConsts engine program)) = p.default.map .ok) ∧
      f.required = (f.params.filter fun p => p.default.isNone).length) ∧
    ∀ node name args (func : FuncId), .call node name args ∈ program.exprs →
      (check engine program).analysis.calls.get? node.id = some (.user func) →
      ∃ f, (check engine program).analysis.functions[func]? = some f ∧ f.required ≤ args.length ∧
        args.length ≤ f.params.length ∧
        ∀ (i : Nat) p, f.params[i]? = some p → i < args.length ∨ p.default.isSome = true := by
  refine ⟨fun func f hf => ?_, fun node name args func hcall hfunc => ?_⟩
  · have hsig := h.programOk.signatures func f hf
    refine ⟨fun i p hp => ⟨FuncInfo.required_le_iff hsig.trailing hp, ?_, ?_⟩,
      FuncInfo.required_eq_length_filter hsig.trailing⟩
    · exact hsig.defaults p (mem_of_getElem? hp)
    · exact h.passes.entered.defaults func f i p hf hp
  · obtain ⟨type, value, hrule, -⟩ := h.nodeOk hcall
    cases hrule with
    | engineCall hengine =>
      rw [hfunc] at hengine
      cases hengine
    | userCall hcallee hf _ hrequired hargs =>
      obtain ⟨⟩ := hfunc.symm.trans hcallee
      refine ⟨_, hf, hrequired, by simpa using hargs.length_le, fun i p hp => ?_⟩
      rcases Nat.lt_or_ge i args.length with hi | hi
      · exact .inl hi
      · have hsig := h.programOk.signatures _ _ hf
        exact .inr ((FuncInfo.required_le_iff hsig.trailing hp).mp (Nat.le_trans hrequired hi))

end Accepted

theorem Accepted.defaults_trail_sample : Accepted Sample.engine Sample.program ∧
    ∃ f, (check Sample.engine Sample.program).analysis.functions[0]? = some f ∧ f.required = 1 ∧
      f.params.length = 2 ∧ ∀ (i : Nat) p, f.params[i]? = some p →
        (f.required ≤ i ↔ p.default.isSome = true) := by
  obtain ⟨f, hf, heq⟩ := map_eq_some_iff.mp Sample.stages.2.2.2.2
  obtain ⟨hrequired, hlength⟩ := Prod.mk.inj heq
  exact ⟨Sample.accepted, f, hf, hrequired, hlength,
    fun i p hp => (((Accepted.defaults_trail Sample.accepted).1 0 f hf).1 i p hp).1⟩

end Nwscript
