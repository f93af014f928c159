import Nwscript.Proofs.Code.Shape

/-! # What code generation does to its state

Every label has one depth at which it is to be reached. A run hands out labels and notes depths; it
keeps to the depths that are given beforehand and gives depths to the labels it hands out. -/

open List

namespace Nwscript

variable {d : Int} {c : GenContext} {slot : Gen.Slot}

abbrev Depths := Label → Option Int

def Depths.set (E : Depths) (label : Label) (d : Option Int) : Depths :=
  fun other => if other = label then d else E other

@[simp] theorem Depths.set_self (E : Depths) (label : Label) (d : Option Int) :
    E.set label d label = d := if_pos rfl

theorem Depths.set_of_lt (E : Depths) {label other : Label} (h : other < label) (d : Option Int) :
    E.set label d other = E other := if_neg (Nat.ne_of_lt h)

/-! ## Marks -/

section Marks

variable {ops ops' : List Op} {lo mid hi label : Label}

theorem mem_marks : label ∈ marks ops ↔ Op.mark label ∈ ops := by
  simp only [marks, mem_filterMap]
  constructor
  · rintro ⟨op, hop, hlabel⟩
    cases op with
    | mark other =>
      cases hlabel
      exact hop
    | _ => cases hlabel
  · exact fun hop => ⟨_, hop, rfl⟩

@[simp] theorem marks_nil : marks [] = [] := rfl

@[simp] theorem marks_append : marks (ops ++ ops') = marks ops ++ marks ops' :=
  filterMap_append

@[simp] theorem marks_instr {i : Instr} : marks (.instr i :: ops) = marks ops := rfl

@[simp] theorem marks_jump {kind : JumpKind} : marks (.jump kind label :: ops) = marks ops := rfl

@[simp] theorem marks_mark : marks (.mark label :: ops) = label :: marks ops := rfl

@[simp] theorem marks_reserveOps {cells : List UInt8} : marks (reserveOps cells) = [] := by
  simp [marks, reserveOps]

@[simp] theorem marks_constantOps {v : Value} : marks (Gen.constantOps v) = [] := by
  cases v <;> rfl

@[simp] theorem marks_popOps {target : Int} : marks (Gen.popOps d target) = [] := by
  unfold Gen.popOps
  split <;> rfl

@[simp] theorem marks_dupOp : marks (Gen.dupOp :: ops) = marks ops := rfl

@[simp] theorem marks_loadOp {offset size : Int} :
    marks (Gen.loadOp c slot d offset size :: ops) = marks ops := rfl

@[simp] theorem marks_storeOp {offset size : Int} :
    marks (Gen.storeOp c slot d offset size :: ops) = marks ops := rfl

@[simp] theorem marks_stepOp {s : Step} : marks (Gen.stepOp c s slot d :: ops) = marks ops := rfl

end Marks

/-! ## States -/

/-- The labels of a state: they are below the next one, the noted depths are those given, and every
function has one label, which is no place to jump to. -/
structure GenState.Ok (a : Analysis) (E : Depths) (s : GenState) : Prop where
  labels : ∀ label d, s.labelDepths.lookup label = some d → label < s.nextLabel ∧ E label = some d
  funcLabels : ∀ p ∈ s.funcLabels, p.2 < s.nextLabel ∧ E p.2 = none
  funcsNodup : (s.funcLabels.map Prod.fst).Nodup
  defined : ∀ p ∈ s.funcLabels, ∃ f, a.functions[p.1]? = some f ∧ f.defined = true

/-- What a run does to labels: those before it keep their depths, and the functions that got a label
entered the queue. -/
structure Advances (a : Analysis) (E : Depths) (s : GenState) (E' : Depths) (s' : GenState) : Prop where
  le : s.nextLabel ≤ s'.nextLabel
  keeps : ∀ label < s.nextLabel, E' label = E label
  ok : s'.Ok a E'
  funcs : ∃ new, s'.funcLabels = new ++ s.funcLabels ∧
    s'.queue = s.queue ++ (new.map Prod.fst).reverse ∧ ∀ p ∈ new, s.nextLabel ≤ p.2

namespace Advances

variable {a : Analysis} {E E' E'' : Depths} {s s' s'' : GenState}

theorem refl (h : s.Ok a E) : Advances a E s E s :=
  ⟨Nat.le_refl _, fun _ _ => rfl, h, [], by simp⟩

theorem trans (h : Advances a E s E' s') (h' : Advances a E' s' E'' s'') : Advances a E s E'' s'' := by
  refine ⟨Nat.le_trans h.le h'.le, fun label hlabel => ?_, h'.ok, ?_⟩
  · rw [h'.keeps label (Nat.lt_of_lt_of_le hlabel h.le), h.keeps label hlabel]
  · obtain ⟨new, hf, hq, hlt⟩ := h.funcs
    obtain ⟨new', hf', hq', hlt'⟩ := h'.funcs
    refine ⟨new' ++ new, ?_, ?_, ?_⟩
    · rw [hf', hf, append_assoc]
    · rw [hq', hq, map_append, reverse_append, append_assoc]
    · intro p hp
      rcases mem_append.mp hp with hp | hp
      · exact Nat.le_trans h.le (hlt' p hp)
      · exact hlt p hp

theorem setDepth (h : Advances a E s E' s') (d : Int) : Advances a E s E' { s' with depth := d } :=
  ⟨h.le, h.keeps, ⟨h.ok.labels, h.ok.funcLabels, h.ok.funcsNodup, h.ok.defined⟩, h.funcs⟩

theorem setLocals (h : Advances a E s E' s') (locals : List (VarId × Int)) :
    Advances a E s E' { s' with locals } :=
  ⟨h.le, h.keeps, ⟨h.ok.labels, h.ok.funcLabels, h.ok.funcsNodup, h.ok.defined⟩, h.funcs⟩

theorem newLabel (h : Advances a E s E' s') (d : Option Int) :
    Advances a E s (E'.set s'.nextLabel d) { s' with nextLabel := s'.nextLabel + 1 } := by
  refine ⟨Nat.le_succ_of_le h.le, fun label hlabel => ?_, ?_, h.funcs⟩
  · rw [Depths.set_of_lt _ (Nat.lt_of_lt_of_le hlabel h.le), h.keeps label hlabel]
  · refine ⟨fun label d' hd' => ?_, fun p hp => ?_, h.ok.funcsNodup, h.ok.defined⟩
    · obtain ⟨hlt, hE⟩ := h.ok.labels label d' hd'
      exact ⟨Nat.lt_succ_of_lt hlt, by rw [Depths.set_of_lt _ hlt, hE]⟩
    · obtain ⟨hlt, hE⟩ := h.ok.funcLabels p hp
      exact ⟨Nat.lt_succ_of_lt hlt, by rw [Depths.set_of_lt _ hlt, hE]⟩

theorem reach (h : Advances a E s E' s') {label : Label} (hlt : label < s'.nextLabel)
    (hE : E' label = some s'.depth) : Advances a E s E' (s'.reach label) := by
  have hlabels : ∀ other d, (s'.reach label).labelDepths.lookup other = some d →
      other < s'.nextLabel ∧ E' other = some d := by
    intro other d hd
    by_cases hother : other = label
    · subst hother
      have hself : ∀ d, s'.labelDepths.lookup other = some d → d = s'.depth := by
        intro d hd
        obtain ⟨-, hE'⟩ := h.ok.labels other d hd
        exact Option.some.inj (hE'.symm.trans hE)
      rw [GenState.lookup_reach_self _ _ hself] at hd
      exact ⟨hlt, by rw [hE, hd]⟩
    · rw [GenState.lookup_reach_ne _ _ hother] at hd
      exact h.ok.labels other d hd
  rw [GenState.reach_eq]
  exact ⟨h.le, h.keeps, ⟨hlabels, h.ok.funcLabels, h.ok.funcsNodup, h.ok.defined⟩, h.funcs⟩

end Advances

theorem GenState.Ok.noted {a : Analysis} {E : Depths} {s : GenState} (h : s.Ok a E) {label : Label}
    (hE : E label = some d) : ∀ d', s.labelDepths.lookup label = some d' → d' = d := by
  intro d' hd'
  obtain ⟨-, hE'⟩ := h.labels label d' hd'
  exact Option.some.inj (hE'.symm.trans hE)

/-- The code refers to the labels of a state and to their depths. -/
structure CodeEnv.Covers (Γ : CodeEnv) (c : GenContext) (E : Depths) (s : GenState) : Prop where
  ctx : Γ.ctx = c
  func : ∀ func label, s.funcLabels.lookup func = some label → Γ.func func = some label
  depth : ∀ label < s.nextLabel, Γ.depth label = E label

theorem lookup_append_of_nodup {α : Type} {new old : List (Nat × α)} {key : Nat} {x : α}
    (hnodup : ((new ++ old).map Prod.fst).Nodup) (h : old.lookup key = some x) :
    (new ++ old).lookup key = some x := by
  have hmem : key ∈ old.map Prod.fst := by
    obtain ⟨l₁, l₂, hsplit, -⟩ := lookup_eq_some_iff.mp h
    rw [hsplit]
    simp
  rw [lookup_append]
  have hnone : new.lookup key = none := by
    rw [lookup_eq_none_iff]
    intro p hp
    rw [map_append, nodup_append] at hnodup
    have hne := hnodup.2.2 p.1 (mem_map_of_mem hp) key hmem
    simpa using Ne.symm hne
  rw [hnone, h]
  rfl

theorem CodeEnv.Covers.of_advances {Γ : CodeEnv} {E E' : Depths} {s s' : GenState}
    (h : Γ.Covers c E' s') (hs : Advances c.analysis E s E' s') : Γ.Covers c E s := by
  refine ⟨h.ctx, fun func label hl => h.func func label ?_, fun label hl => ?_⟩
  · obtain ⟨new, hf, -⟩ := hs.funcs
    have hnodup := hs.ok.funcsNodup
    rw [hf] at hnodup ⊢
    exact lookup_append_of_nodup hnodup hl
  · rw [h.depth label (Nat.lt_of_lt_of_le hl hs.le), hs.keeps label hl]

namespace Gen

theorem meets_funcLabel {a : Analysis} {E : Depths} {s : GenState} (hok : s.Ok a E) {func : FuncId}
    {f : FuncInfo} (hf : a.functions[func]? = some f) (hdef : f.defined = true)
    {Q : Label → GenState → Prop}
    (hQ : ∀ label E' s', Advances a E s E' s' → s'.depth = s.depth → s'.locals = s.locals →
      s'.funcLabels.lookup func = some label → Q label s') : Ends Overflows (funcLabel func) s Q := by
  simp only [funcLabel, ends_bind, ends_get]
  cases hl : s.funcLabels.lookup func with
  | some label => exact hQ label E s (.refl hok) rfl rfl hl
  | none =>
    simp only [ends_bind, ends_newLabel, ends_modify, ends_pure]
    have hnew := (Advances.refl hok).newLabel none
    have hnotin : func ∉ s.funcLabels.map Prod.fst := by
      intro hmem
      obtain ⟨p, hp, rfl⟩ := mem_map.mp hmem
      have := lookup_eq_none_iff.mp hl p hp
      simp at this
    refine hQ s.nextLabel (E.set s.nextLabel none) _ ⟨hnew.le, hnew.keeps, ?_, ?_⟩ rfl rfl
      lookup_cons_self
    · refine ⟨hnew.ok.labels, ?_, ?_, ?_⟩
      · intro p hp
        rcases mem_cons.mp hp with rfl | hp
        · exact ⟨Nat.lt_succ_self _, Depths.set_self ..⟩
        · exact hnew.ok.funcLabels p hp
      · exact nodup_cons.mpr ⟨hnotin, hok.funcsNodup⟩
      · intro p hp
        rcases mem_cons.mp hp with rfl | hp
        · exact ⟨f, hf, hdef⟩
        · exact hok.defined p hp
    · exact ⟨[(func, s.nextLabel)], rfl, rfl, by simp⟩

end Gen
end Nwscript
