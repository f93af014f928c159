import Nwscript.Proofs.Code.Passage
import Nwscript.Proofs.Trace.Reach

/-! # Balanced routines

Every line of a routine has one depth: however control comes to the line, the stack is that deep. A
depth is given to each line by `Flows`, and the jumps of a routine stay in it, so that they lead to lines
with known depths. -/

open List

namespace Nwscript

open Gen

/-! ## Depths of lines -/

/-- The line that ends a stored action. It is reached at the depth at which the state was stored, and
stands before the label to which the jump behind that instruction leads. -/
def ClosesAction (ops : List Op) (depth : Nat → Int) (i : Nat) : Prop :=
  ∃ k globals frame after, k < i ∧ ops[k]? = some (.instr (.storeState globals frame)) ∧
    ops[k + 1]? = some (.jump .always after) ∧ ops[i + 1]? = some (.mark after) ∧
    depth (k + 2) = depth k ∧ depth i = depth k

/-- What a line asks of the depths around it, where labels are reached at given depths. -/
inductive LineOk (effect : Op → Int → Prop) (reached : Label → Option Int) (ops : List Op)
    (depth : Nat → Int) (i : Nat) : Op → Prop where
  | instr {instr} : instr ≠ .ret → effect (.instr instr) (depth (i + 1) - depth i) →
      LineOk effect reached ops depth i (.instr instr)
  | call {label} : effect (.jump .call label) (depth (i + 1) - depth i) →
      LineOk effect reached ops depth i (.jump .call label)
  | branch {kind label} : kind = .ifZero ∨ kind = .ifNonzero →
      depth (i + 1) = depth i + -cellSize → reached label = some (depth i + -cellSize) →
      LineOk effect reached ops depth i (.jump kind label)
  | jump {label} : reached label = some (depth i) →
      LineOk effect reached ops depth i (.jump .always label)
  | mark {label} : reached label = some (depth i) → depth (i + 1) = depth i →
      LineOk effect reached ops depth i (.mark label)
  | ret : ClosesAction ops depth i → LineOk effect reached ops depth i (.instr .ret)

variable {label : Label} {bottom bottom' : Int} {ps : List Param} {slots : List (VarId × Int)}

def Along (effect : Op → Int → Prop) (reached : Label → Option Int) (ops : List Op)
    (depth : Nat → Int) : Prop :=
  ∀ i op, ops[i]? = some op → LineOk effect reached ops depth i op

section Along

variable {effect : Op → Int → Prop} {reached : Label → Option Int} {ops ops' : List Op}
  {depth depth' : Nat → Int} {d d' : Int} {i n : Nat} {op : Op}

theorem ClosesAction.embed (h : ClosesAction ops' depth' i) (hi : i < ops'.length)
    (hops : ∀ j op, ops'[j]? = some op → ops[n + j]? = some op)
    (hdepth : ∀ j, j ≤ ops'.length → depth (n + j) = depth' j) : ClosesAction ops depth (n + i) := by
  obtain ⟨k, globals, frame, after, hk, hstore, hjump, hmark, hskip, hsame⟩ := h
  have hk₂ : depth (n + k + 2) = depth' (k + 2) := hdepth (k + 2) (by omega)
  refine ⟨n + k, globals, frame, after, by omega, hops k _ hstore, hops (k + 1) _ hjump,
    hops (i + 1) _ hmark, ?_, ?_⟩
  · rw [hk₂, hdepth k (by omega), hskip]
  · rw [hdepth i (by omega), hdepth k (by omega), hsame]

theorem LineOk.embed (h : LineOk effect reached ops' depth' i op) (hi : i < ops'.length)
    (hops : ∀ j op, ops'[j]? = some op → ops[n + j]? = some op)
    (hdepth : ∀ j, j ≤ ops'.length → depth (n + j) = depth' j) :
    LineOk effect reached ops depth (n + i) op := by
  have hi₀ := hdepth i (by omega)
  have hi₁ : depth (n + i + 1) = depth' (i + 1) := hdepth (i + 1) (by omega)
  cases h with
  | instr hi he => exact .instr hi (by rwa [hi₀, hi₁])
  | call he => exact .call (by rwa [hi₀, hi₁])
  | branch hkind hnext hl => exact .branch hkind (by rwa [hi₀, hi₁]) (by rwa [hi₀])
  | jump hl => exact .jump (by rwa [hi₀])
  | mark hl hnext => exact .mark (by rwa [hi₀]) (by rwa [hi₀, hi₁])
  | ret hclose => exact .ret (hclose.embed hi hops hdepth)

theorem LineOk.append (h : LineOk effect reached ops depth i op) (hi : i < ops.length)
    (hdepth : ∀ j, j ≤ ops.length → depth' j = depth j) :
    LineOk effect reached (ops ++ ops') depth' i op := by
  rw [← Nat.zero_add i]
  refine h.embed hi (fun j op hj => ?_) fun j hj => ?_
  · rw [Nat.zero_add, getElem?_append_left (List.getElem?_eq_some_iff.mp hj).1, hj]
  · rw [Nat.zero_add, hdepth j hj]

def joinDepths (n : Nat) (depth depth' : Nat → Int) (i : Nat) : Int :=
  if i < n then depth i else depth' (i - n)

theorem joinDepths_left (hmeet : depth n = depth' 0) (hi : i ≤ n) :
    joinDepths n depth depth' i = depth i := by
  unfold joinDepths
  split
  · rfl
  · obtain rfl : i = n := by omega
    rw [Nat.sub_self, hmeet]

theorem joinDepths_right : joinDepths n depth depth' (n + i) = depth' i := by
  unfold joinDepths
  rw [if_neg (by omega), Nat.add_sub_cancel_left]

theorem Along.append (h : Along effect reached ops depth) (h' : Along effect reached ops' depth')
    (hmeet : depth ops.length = depth' 0) :
    Along effect reached (ops ++ ops') (joinDepths ops.length depth depth') := by
  intro i op hop
  by_cases hi : i < ops.length
  · rw [getElem?_append_left hi] at hop
    exact (h i op hop).append hi fun j hj => joinDepths_left hmeet hj
  · obtain ⟨k, rfl⟩ := Nat.exists_eq_add_of_le (Nat.not_lt.mp hi)
    rw [getElem?_append_right (by omega), Nat.add_sub_cancel_left] at hop
    refine (h' k op hop).embed (List.getElem?_eq_some_iff.mp hop).1 (fun j op hj => ?_) fun j _ =>
      joinDepths_right
    rw [getElem?_append_right (by omega), Nat.add_sub_cancel_left, hj]

theorem along_singleton (h : LineOk effect reached [op] depth 0 op) : Along effect reached [op] depth := by
  intro i op' hop
  obtain ⟨hi, rfl⟩ := List.getElem?_eq_some_iff.mp hop
  obtain rfl : i = 0 := by simpa using hi
  exact h

def Leads (effect : Op → Int → Prop) (reached : Label → Option Int) (d : Int) (ops : List Op)
    (d' : Int) : Prop :=
  ∃ depth, depth 0 = d ∧ depth ops.length = d' ∧ Along effect reached ops depth

theorem Leads.append {d₁ : Int} (h : Leads effect reached d ops d₁)
    (h' : Leads effect reached d₁ ops' d') : Leads effect reached d (ops ++ ops') d' := by
  obtain ⟨depth, hd, hd₁, halong⟩ := h
  obtain ⟨depth', hd₁', hd', halong'⟩ := h'
  have hmeet : depth ops.length = depth' 0 := hd₁.trans hd₁'.symm
  refine ⟨_, ?_, ?_, halong.append halong' hmeet⟩
  · rw [joinDepths_left hmeet (Nat.zero_le _), hd]
  · rw [length_append, joinDepths_right, hd']

theorem leads_singleton
    (h : ∀ depth : Nat → Int, depth 0 = d → depth 1 = d' → LineOk effect reached [op] depth 0 op) :
    Leads effect reached d [op] d' := by
  refine ⟨fun i => if i = 0 then d else d', rfl, rfl, along_singleton (h _ rfl rfl)⟩

theorem leads_stored {globals frame : UInt32} {after : Label} {body : List Op}
    (hafter : reached after = some d) (hstore : effect (.instr (.storeState globals frame)) 0)
    (hbody : Leads effect reached d body d) :
    Leads effect reached d (.instr (.storeState globals frame) :: .jump .always after ::
      (body ++ [Op.instr .ret, .mark after])) d := by
  have hfirst : Leads effect reached d [.instr (.storeState globals frame)] d :=
    leads_singleton fun depth h₀ h₁ => .instr (by simp) (by simpa [h₀, h₁] using hstore)
  have hsecond : Leads effect reached d [.jump .always after] d :=
    leads_singleton fun depth h₀ _ => .jump (by rwa [h₀])
  obtain ⟨depth₀, h₀, h₂, halong₀⟩ := hfirst.append hsecond
  obtain ⟨depth₁, hd, hd', halong₁⟩ := hbody
  have halong := halong₀.append halong₁ (h₂.trans hd.symm)
  generalize hlines : [Op.instr (.storeState globals frame)] ++ [Op.jump .always after] ++
    body = lines
    at halong
  generalize hdepth : joinDepths _ depth₀ depth₁ = depth at halong
  have hstart : depth 0 = d := by
    rw [← hdepth, joinDepths_left (h₂.trans hd.symm) (Nat.zero_le _), h₀]
  have hskip : depth 2 = d := by
    rw [← hdepth, joinDepths_left (h₂.trans hd.symm) (Nat.le_refl 2), ← h₂]
    rfl
  have hend : depth lines.length = d := by
    have hlen : lines.length = [Op.instr (.storeState globals frame), .jump .always after].length +
      body.length := by rw [← hlines, length_append]; rfl
    rw [hlen, ← hdepth]
    exact joinDepths_right.trans hd'
  have heq : .instr (.storeState globals frame) :: .jump .always after ::
      (body ++ [Op.instr .ret, .mark after]) = lines ++ [Op.instr .ret, .mark after] := by
    rw [← hlines]
    simp
  rw [heq]
  refine ⟨joinDepths lines.length depth fun _ => d, ?_, ?_, fun i op hop => ?_⟩
  · rw [joinDepths_left hend (Nat.zero_le _), hstart]
  · rw [length_append, joinDepths_right]
  by_cases hi : i < lines.length
  · rw [getElem?_append_left hi] at hop
    exact (halong i op hop).append hi fun j hj => joinDepths_left hend hj
  · obtain ⟨k, rfl⟩ := Nat.exists_eq_add_of_le (Nat.not_lt.mp hi)
    rw [getElem?_append_right (by omega), Nat.add_sub_cancel_left] at hop
    have hlen : 2 ≤ lines.length := by
      rw [← hlines]
      simp
    match k, hop with
    | 0, hop =>
      cases hop
      refine .ret ⟨0, globals, frame, after, by omega, ?_, ?_, ?_, ?_, ?_⟩
      · rw [getElem?_append_left (by omega), ← hlines]
        rfl
      · rw [getElem?_append_left (by omega), ← hlines]
        rfl
      · rw [getElem?_append_right (by omega)]
        simp
      · rw [joinDepths_left hend (by omega), joinDepths_left hend (by omega), hskip, hstart]
      · rw [joinDepths_right, joinDepths_left hend (by omega), hstart]
    | 1, hop =>
      cases hop
      refine .mark ?_ ?_
      · rwa [joinDepths_right]
      · rw [Nat.add_assoc, joinDepths_right, joinDepths_right]

theorem Flows.leads (h : Flows effect reached d ops d') : Leads effect reached d ops d' := by
  have hcancel (d e : Int) : d + e - d = e := by omega
  induction h with
  | @nil d => exact ⟨fun _ => d, rfl, rfl, by simp [Along]⟩
  | @instr i e d d' ops hi he _ ih =>
    have hline : Leads effect reached d [.instr i] (d + e) :=
      leads_singleton fun depth h₀ h₁ => .instr hi (by rwa [h₀, h₁, hcancel])
    exact hline.append ih
  | @call label e d d' ops he _ ih =>
    have hline : Leads effect reached d [.jump .call label] (d + e) :=
      leads_singleton fun depth h₀ h₁ => .call (by rwa [h₀, h₁, hcancel])
    exact hline.append ih
  | @branch kind label d d' ops hkind hl _ ih =>
    have hline : Leads effect reached d [.jump kind label] (d + -cellSize) :=
      leads_singleton fun depth h₀ h₁ => .branch hkind (by rw [h₀, h₁]) (by rwa [h₀])
    exact hline.append ih
  | @jump label d d₁ d' ops hl _ ih =>
    have hline : Leads effect reached d [.jump .always label] d₁ :=
      leads_singleton fun depth h₀ _ => .jump (by rwa [h₀])
    exact hline.append ih
  | @mark label d d' ops hl _ ih =>
    have hline : Leads effect reached d [.mark label] d :=
      leads_singleton fun depth h₀ h₁ => .mark (by rwa [h₀]) (by rw [h₀, h₁])
    exact hline.append ih
  | stored hl he _ _ ihb ih =>
    have hblock := (leads_stored hl he ihb).append ih
    simpa using hblock

end Along

/-! ## Balanced lines -/

def Op.fallsThrough : Op → Bool
  | .jump .always _ | .instr .ret => false
  | _ => true

/-- Lines with depths: they start at depth zero, every way from one line to another changes the depth by
the effect of the line, and the lines return at one depth, except where they end a stored action. -/
structure Balanced (effect : Op → Int → Prop) (exit : Int) (ops : List Op) (depth : Nat → Int) :
    Prop where
  start : depth 0 = 0
  next : ∀ i op, ops[i]? = some op → op.fallsThrough = true →
    i + 1 < ops.length ∧ effect op (depth (i + 1) - depth i)
  jump : ∀ i kind label, ops[i]? = some (.jump kind label) → kind ≠ .call →
    .mark label ∈ ops ∧
      ∀ j : Nat, ops[j]? = some (.mark label) → effect (.jump kind label) (depth j - depth i)
  ret : ∀ i, ops[i]? = some (.instr .ret) →
    (i + 1 = ops.length ∧ depth i = exit) ∨ ClosesAction ops depth i

theorem getElem?_routine {first last op : Op} {ops : List Op} {i : Nat}
    (h : ([first] ++ ops ++ [last])[i]? = some op) :
    (i = 0 ∧ op = first) ∨ (∃ k, i = 1 + k ∧ ops[k]? = some op) ∨ (i = 1 + ops.length ∧ op = last) := by
  rw [append_assoc] at h
  cases i with
  | zero => exact .inl ⟨rfl, (Option.some.inj h).symm⟩
  | succ k =>
    have hk : (ops ++ [last])[k]? = some op := h
    rcases Nat.lt_trichotomy k ops.length with hlt | heq | hgt
    · rw [getElem?_append_left hlt] at hk
      exact .inr (.inl ⟨k, Nat.add_comm .., hk⟩)
    · rw [heq, getElem?_append_right (Nat.le_refl _), Nat.sub_self] at hk
      exact .inr (.inr ⟨by omega, (Option.some.inj hk).symm⟩)
    · rw [getElem?_eq_none (by simp; omega)] at hk
      cases hk

section Routine

variable {c : GenContext} {calls : Label → Int → Prop} {count : Nat → Prop} {reached : Label → Option Int} {ops : List Op}
  {depth : Nat → Int} {i : Nat} {op : Op}

theorem LineOk.effect_next (h : LineOk (LineEffect c calls count) reached ops depth i op)
    (hfalls : op.fallsThrough = true) : LineEffect c calls count op (depth (i + 1) - depth i) := by
  cases h with
  | instr _ he => exact he
  | call he => exact he
  | branch hkind hnext _ =>
    have hdiff : depth (i + 1) - depth i = -cellSize := by omega
    rw [hdiff]
    rcases hkind with rfl | rfl <;> exact .own rfl
  | jump _ => cases hfalls
  | mark _ hnext =>
    have hdiff : depth (i + 1) - depth i = 0 := by omega
    rw [hdiff]
    exact .own rfl
  | ret _ => cases hfalls

theorem LineOk.effect_jump {kind : JumpKind} {d : Int}
    (h : LineOk (LineEffect c calls count) reached ops depth i (.jump kind label)) (hkind : kind ≠ .call)
    (hreached : reached label = some d) : LineEffect c calls count (.jump kind label) (d - depth i) := by
  cases h with
  | call _ => exact absurd rfl hkind
  | branch hkind _ hl =>
    have hdiff : d - depth i = -cellSize := by
      have heq := Option.some.inj (hreached.symm.trans hl)
      omega
    rw [hdiff]
    rcases hkind with rfl | rfl <;> exact .own rfl
  | jump hl =>
    have hdiff : d - depth i = 0 := by
      have heq := Option.some.inj (hreached.symm.trans hl)
      omega
    rw [hdiff]
    exact .own rfl

theorem Flows.depth_routine {exit : Int} (h : Flows (LineEffect c calls count) reached 0 ops exit)
    (hjumps : ∀ kind target, Op.jump kind target ∈ ops → kind ≠ .call → target ∈ marks ops)
    (hlabel : label ∉ marks ops) :
    ∃ depth, Balanced (LineEffect c calls count) exit ([Op.mark label] ++ ops ++
      [Op.instr .ret]) depth := by
  obtain ⟨depth, hstart, hend, halong⟩ := h.leads
  have hlen : ([Op.mark label] ++ ops ++ [Op.instr .ret]).length = 1 + ops.length + 1 := by
    simp only [length_append, length_singleton]
  refine ⟨joinDepths 1 (fun _ => 0) depth, rfl, fun i op hop hfalls => ?_,
    fun i kind target hop hkind => ?_, fun i hop => ?_⟩
  · rcases getElem?_routine hop with ⟨rfl, rfl⟩ | ⟨k, rfl, hk⟩ | ⟨rfl, rfl⟩
    · refine ⟨by omega, ?_⟩
      rw [show joinDepths 1 (fun _ => 0) depth (0 + 1) = 0 from hstart]
      exact .own rfl
    · have hlt := (List.getElem?_eq_some_iff.mp hk).1
      refine ⟨by omega, ?_⟩
      rw [Nat.add_assoc, joinDepths_right, joinDepths_right]
      exact (halong k op hk).effect_next hfalls
    · cases hfalls
  · rcases getElem?_routine hop with ⟨-, heq⟩ | ⟨k, rfl, hk⟩ | ⟨-, heq⟩
    · cases heq
    · have htarget := hjumps kind target (mem_of_getElem? hk) hkind
      refine ⟨?_, fun j hj => ?_⟩
      · have hmark := mem_marks.mp htarget
        simp [hmark]
      · rcases getElem?_routine hj with ⟨-, heq⟩ | ⟨k', rfl, hk'⟩ | ⟨-, heq⟩
        · cases heq
          exact absurd htarget hlabel
        · rw [joinDepths_right, joinDepths_right]
          cases halong k' _ hk' with
          | mark hreached _ => exact (halong k _ hk).effect_jump hkind hreached
        · cases heq
    · cases heq
  · rcases getElem?_routine hop with ⟨-, heq⟩ | ⟨k, rfl, hk⟩ | ⟨rfl, -⟩
    · cases heq
    · cases halong k _ hk with
      | instr hne _ => exact absurd rfl hne
      | ret hclose =>
        refine .inr (hclose.embed (List.getElem?_eq_some_iff.mp hk).1 (fun j op hj => ?_)
          fun j _ => joinDepths_right)
        have hbehind : ([Op.mark label] ++ (ops ++ [Op.instr .ret]))[1 + j]? =
            (ops ++ [Op.instr .ret])[j]? := by rw [Nat.add_comm]; rfl
        rw [append_assoc, hbehind, getElem?_append_left (List.getElem?_eq_some_iff.mp hj).1, hj]
    · refine .inl ⟨by omega, ?_⟩
      rw [joinDepths_right, hend]

end Routine

/-! ## Routines of programs -/

theorem Flows.mono {effect effect' : Op → Int → Prop} {reached : Label → Option Int} {d d' : Int}
    {ops : List Op} (h : Flows effect reached d ops d') (himp : ∀ op e, effect op e → effect' op e) :
    Flows effect' reached d ops d' := by
  induction h with
  | nil => exact .nil
  | instr hi he _ ih => exact .instr hi (himp _ _ he) ih
  | call he _ ih => exact .call (himp _ _ he) ih
  | branch hkind hl _ ih => exact .branch hkind hl ih
  | jump hl _ ih => exact .jump hl ih
  | mark hl _ ih => exact .mark hl ih
  | stored hl he _ _ ihb ih => exact .stored hl (himp _ _ he) ihb ih

theorem LineEffect.mono {c : GenContext} {calls calls' : Label → Int → Prop} {count : Nat → Prop}
    (himp : ∀ label e, calls label e → calls' label e) (op : Op) (e : Int)
    (h : LineEffect c calls count op e) : LineEffect c calls' count op e := by
  cases h with
  | own he => exact .own he
  | call he => exact .call (himp _ _ he)
  | action hinfo hcount => exact .action hinfo hcount

theorem ParamSlots.bottom_eq {a : Analysis}
    (h : ParamSlots a bottom ps slots bottom') {qs : List FuncParam}
    {visible inner : List VarId} (hparams : ParamsOk a visible ps qs inner) :
    bottom' = bottom - (qs.map fun q => a.sizeOf q.type).sum := by
  induction h generalizing qs visible with
  | nil =>
    cases qs with
    | nil => simp
    | cons q qs => cases hparams
  | cons hdecl hinfo _ _ ih =>
    cases qs with
    | nil => cases hparams
    | cons q qs =>
      obtain ⟨var, info, hdecl', -, hinfo', htype, -, hrest⟩ := hparams
      cases hdecl.symm.trans hdecl'
      cases hinfo.symm.trans hinfo'
      rw [ih hrest, map_cons, sum_cons, htype]
      omega

theorem ParamSlots.fits {a : Analysis}
    (h : ParamSlots a bottom ps slots bottom') (hfits : Fits bottom) : Fits bottom' := by
  induction h with
  | nil => exact hfits
  | cons _ _ hbelow _ ih => exact ih hbelow

def FewArgs (es : List Expr) : Prop := ArgCounts (· ≤ 255) es

inductive Returns (a : Analysis) (r : Routine) : Int → Prop where
  | loader : r.name = loaderName → Returns a r ((a.entry.map fun e => a.sizeOf e.kind.ret).getD 0)
  | globals : r.name = globalsName → Returns a r 0
  /-- A function pops its parameters. -/
  | function {func : FuncId} {info : FuncInfo} :
      a.functions[func]? = some info → r.name = info.name → Returns a r (-paramsSize a info)

def CallReturns (a : Analysis) (routines : List Routine) (label : Label) (effect : Int) : Prop :=
  ∃ r ∈ routines, r.label = label ∧ Returns a r effect

structure MarkedCode (c : GenContext) (items : Program) (A : Assembly) : Prop
    extends ProgramCode c items A where
  marks : (marks A.lines).Nodup
  jumps : ∀ r ∈ A.routines, r.JumpsWithin

theorem Accepted.markedCode {engine : EngineTable} {program : Program} (h : Accepted engine program)
    (hsmall : (check engine program).analysis.structs.Small) {code : Code}
    (hcode : generate engine program (check engine program).analysis = .ok code) :
    ∃ A, code.routines = A.routines ∧ code.entry = A.entry.map Prod.snd ∧
      MarkedCode (context engine program) program A := by
  obtain ⟨A, hroutines, hentry, hA⟩ := h.programCode hsmall hcode
  have hmarks := (labelled_of_generate hcode).once
  have hjumps := jumpsWithin_of_generate hcode
  rw [Code.lines, hroutines] at hmarks
  rw [hroutines] at hjumps
  exact ⟨A, hroutines, hentry, hA, hmarks, hjumps⟩

section Program

variable {c : GenContext} {items : Program} {A : Assembly}

theorem MarkedCode.callReturns (h : MarkedCode c items A) {depth : Depths} {e : Int}
    (hcalls : CodeEnv.Calls ⟨c, A.func, depth⟩ label e) :
    CallReturns c.analysis A.routines label e := by
  obtain ⟨func, info, hlabel, hinfo, rfl⟩ := hcalls
  obtain ⟨⟨func, index, r⟩, hp, rfl, hpl⟩ := h.called func label hlabel
  refine ⟨r, mem_append_right _ (mem_map.mpr ⟨_, hp, rfl⟩), hpl, ?_⟩
  cases h.functions _ hp with
  | mk hinfo' _ _ _ _ _ _ _ =>
    cases hinfo.symm.trans hinfo'
    exact .function hinfo rfl

theorem MarkedCode.entryReturns (h : MarkedCode c items A) (hitems : ProgramOk c.engine c.analysis items)
    {e : EntryPoint} (hentry : A.entry = some (e, label)) :
    CallReturns c.analysis A.routines label 0 := by
  have he : c.analysis.entry = some e := by rw [← h.entry, hentry]; rfl
  obtain ⟨info, hinfo, -, hparams, -⟩ := hitems.entry e he
  refine @MarkedCode.callReturns _ _ _ _ h (fun _ => none) _ ⟨e.func, info, h.entryLabel e label hentry, hinfo, ?_⟩
  simp [paramsSize, hparams]

theorem MarkedCode.marks_nodup (h : MarkedCode c items A) {r : Routine} (hr : r ∈ A.routines) :
    (Nwscript.marks r.ops).Nodup := by
  have hsub : r.ops.Sublist A.lines := sublist_flatten_of_mem (mem_map_of_mem hr)
  exact h.marks.sublist (hsub.filterMap _)

/-- A routine begins with its label, and its lines have depths with which it is balanced. -/
def RoutineOk (c : GenContext) (routines : List Routine) (r : Routine) : Prop :=
  r.ops.head? = some (.mark r.label) ∧ ∃ exit depth, Returns c.analysis r exit ∧
    Balanced (LineEffect c (CallReturns c.analysis routines) (· ≤ 255)) exit r.ops depth

theorem Flows.routineOk {routines : List Routine} {name : String} {ops : List Op}
    {reached : Label → Option Int} {exit : Int}
    (h : Flows (LineEffect c (CallReturns c.analysis routines) (· ≤ 255)) reached 0 ops exit)
    (hjumps : Routine.JumpsWithin ⟨name, label, [Op.mark label] ++ ops ++ [Op.instr .ret]⟩)
    (hmarks : (Nwscript.marks ([Op.mark label] ++ ops ++ [Op.instr .ret])).Nodup)
    (hexit : Returns c.analysis ⟨name, label, [Op.mark label] ++ ops ++ [Op.instr .ret]⟩ exit) :
    RoutineOk c routines ⟨name, label, [Op.mark label] ++ ops ++ [Op.instr .ret]⟩ := by
  have hlabel : label ∉ Nwscript.marks ops := by
    simp only [cons_append, nil_append, marks_mark, marks_append, nodup_cons,
      mem_append, not_or] at hmarks
    exact hmarks.1.1
  have hown : ∀ kind target, Op.jump kind target ∈ ops → kind ≠ .call → target ∈ Nwscript.marks ops := by
    intro kind target hop hkind
    have htarget : target ∈ Nwscript.marks (ops ++ [Op.instr .ret]) :=
      hjumps kind target (by simp [hop]) hkind
    simpa using htarget
  obtain ⟨depth, hdepth⟩ := h.depth_routine hown hlabel
  exact ⟨rfl, exit, depth, hexit, hdepth⟩

theorem parts_subset_of_item {item : Item} (hitem : item ∈ items) {e : Expr} (he : e ∈ item.exprs) :
    e.parts ⊆ items.exprs :=
  fun _ hp => mem_flatMap.mpr ⟨item, hitem, mem_flatMap.mpr ⟨e, he, hp⟩⟩

theorem marks_popParams : marks (popParams bottom) = [] := by
  unfold popParams
  split <;> rfl

theorem exit_not_mem_marks {exit : Label} {ops : List Op}
    (h : (Nwscript.marks ([Op.mark label] ++ ops ++ [Op.mark exit] ++ popParams bottom ++
      [Op.instr .ret])).Nodup) : exit ∉ Nwscript.marks ops := by
  simp [marks_popParams, nodup_append] at h
  exact fun hmem => h.2.2 _ hmem rfl

theorem ParamSlots.bottom_nonpos
    (hc : c.Ok) (h : ParamSlots c.analysis bottom ps slots bottom') : bottom' ≤ bottom := by
  induction h with
  | nil => exact Int.le_refl _
  | @cons bottom bottom' p ps var info slots _ _ _ _ ih =>
    have hsize := (hc.isOperand info.type).1
    omega

theorem MarkedCode.routineOk_function (h : MarkedCode c items A) (hc : c.Ok)
    (hargs : FewArgs items.exprs) {p : PlacedRoutine} (hp : p ∈ A.functions) :
    RoutineOk c A.routines p.routine := by
  have hmem : p.routine ∈ A.routines := mem_append_right _ (mem_map_of_mem hp)
  have hmarks := h.marks_nodup hmem
  have hjumps := h.jumps _ hmem
  obtain ⟨func, index, r⟩ := p
  cases h.functions _ hp with
  | @mk info decl body label exit slots bottom depth ops locals hinfo _ hitem hfunc _ hslots hexit
      hcode =>
    obtain ⟨visible, hparams, -⟩ := hfunc.scope
    have hbottom : bottom = -paramsSize c.analysis info := by
      rw [hslots.bottom_eq hparams, paramsSize]
      omega
    have hbody := (StmtCode.passage hc hargs hcode
      (fun e he => parts_subset_of_item (mem_of_getElem? hitem) he) (by simp)
      (exit_not_mem_marks hmarks)).flows
    have hpop : Flows (LineEffect c (CallReturns c.analysis A.routines) (· ≤ 255)) depth 0 (popParams bottom)
        bottom := by
      unfold popParams
      split
      · exact flows_moveSp (hslots.fits ⟨by decide, by decide⟩) (Int.zero_add _)
      · have hle := hslots.bottom_nonpos hc
        exact Flows.nil.cast (by omega)
    have hflow := ((hbody.mono (LineEffect.mono fun _ _ => h.callReturns)).append (.oneMark hexit)).append hpop
    refine hflow.routineOk hjumps (by simpa using hmarks) ?_
    rw [hbottom]
    exact .function hinfo rfl

theorem mem_item_of_globalDeclarators {decl : Declarator} (h : decl ∈ globalDeclarators items) :
    ∃ item ∈ items, ∀ e ∈ decl.init, e ∈ item.exprs := by
  obtain ⟨item, hitem, hdecl⟩ := mem_flatMap.mp h
  refine ⟨item, hitem, fun e he => ?_⟩
  split at hdecl
  · split at hdecl
    · cases hdecl
    · exact mem_flatMap.mpr ⟨decl, hdecl, Option.mem_toList.mpr he⟩
  · cases hdecl

theorem InitsCode.passage_globals {func : FuncId → Option Label} {depth : Depths} {count : Nat → Prop}
    {d : Int} {cells : List UInt8} {inits call : List Op} (hc : c.Ok)
    (hcount : ArgCounts count items.exprs)
    (h : InitsCode ⟨c, func, depth⟩ { exit := label } d (globalDeclarators items) inits)
    (hmarks : (Nwscript.marks ([Op.mark label] ++ reserveOps cells ++ [Op.instr .saveBp] ++ inits ++
      call ++ [Op.instr .restoreBp] ++ [Op.instr (.moveSp (.ofInt (-c.globals.size)))] ++
      [Op.instr .ret])).Nodup) :
    Passage ⟨c, func, depth⟩ { exit := label } items.exprs count d inits d := by
  refine InitsCode.passage hc hcount h (fun decl hdecl e he => ?_) ?_
  · obtain ⟨item, hitem, hexprs⟩ := mem_item_of_globalDeclarators hdecl
    exact parts_subset_of_item hitem (hexprs e he)
  · simp only [append_assoc, cons_append, nil_append, marks_mark, marks_append,
      nodup_cons, mem_append, not_or] at hmarks
    simp at hmarks
    exact hmarks.1.1

theorem EntryCode.flows {calls : Label → Int → Prop} {count : Nat → Prop} {reached : Label → Option Int}
    {d : Int} {entry : Option (EntryPoint × Label)} {ops : List Op} (h : EntryCode d entry ops)
    (hcall : ∀ e label, entry = some (e, label) → calls label 0) :
    Flows (LineEffect c calls count) reached d ops d := by
  cases h with
  | none => exact .nil
  | main _ => exact Flows.call (.call (hcall _ _ rfl)) (.cast .nil (Int.add_zero _))
  | @startingConditional e label _ _ =>
    have hcell : Flows (LineEffect c calls count) reached d [.instr (.reserve TypeByte.int)] (d + cellSize) :=
      flows_own (by simp) rfl rfl
    have hjump : Flows (LineEffect c calls count) reached (d + cellSize) [.jump .call label]
        (d + cellSize) := Flows.call (.call (hcall _ _ rfl)) (.cast .nil (Int.add_zero _))
    exact ((hcell.append hjump).append (flows_own (by simp) rfl (Int.add_zero _))).append
      (flows_moveSp ⟨by decide, by decide⟩ (Int.add_neg_cancel_right _ _))

theorem MarkedCode.routineOk_globals (h : MarkedCode c items A) (hc : c.Ok)
    (hitems : ProgramOk c.engine c.analysis items) (hargs : FewArgs items.exprs) {r : Routine}
    (hr : A.init = some r) : RoutineOk c A.routines r := by
  have hmem : r ∈ A.routines := by simp [Assembly.routines, hr]
  have hmarks := h.marks_nodup hmem
  have hjumps := h.jumps r hmem
  cases h.init r hr with
  | @mk label cells depth inits call hcells _ hfits hinits hcall =>
    have hinit := (InitsCode.passage_globals hc hargs hinits hmarks).flows.mono
      (LineEffect.mono fun _ _ => h.callReturns)
    have hreserve : Flows (LineEffect c (CallReturns c.analysis A.routines) (· ≤ 255)) depth 0
        (reserveOps cells) c.globals.size := (flows_reserveOps cells).cast (by omega)
    have hsave : Flows (LineEffect c (CallReturns c.analysis A.routines) (· ≤ 255)) depth c.globals.size
        [Op.instr .saveBp] (c.globals.size + cellSize) := flows_own (by simp) rfl rfl
    have hrestore : Flows (LineEffect c (CallReturns c.analysis A.routines) (· ≤ 255)) depth
        (c.globals.size + cellSize) [.instr .restoreBp] c.globals.size :=
      flows_own (by simp) rfl (Int.add_neg_cancel_right _ _)
    have hpop : Flows (LineEffect c (CallReturns c.analysis A.routines) (· ≤ 255)) depth c.globals.size
        [.instr (.moveSp (.ofInt (-c.globals.size)))] 0 := flows_moveSp hfits (Int.add_right_neg _)
    have hentry := @EntryCode.flows c _ (· ≤ 255) depth _ _ _ hcall fun e label => h.entryReturns hitems
    have hflow := ((((hreserve.append hsave).append hinit).append hentry).append hrestore).append hpop
    exact hflow.routineOk hjumps (by simpa using hmarks) (.globals rfl)

theorem MarkedCode.routineOk_loader (h : MarkedCode c items A)
    (hitems : ProgramOk c.engine c.analysis items) : RoutineOk c A.routines A.loader := by
  generalize hexit : (c.analysis.entry.map fun e => c.analysis.sizeOf e.kind.ret).getD 0 = exit
  have hresult : Flows (LineEffect c (CallReturns c.analysis A.routines) (· ≤ 255)) (fun _ => none) 0
      (loaderResult A.entry) exit := by
    rw [← hexit, ← h.entry]
    cases A.entry with
    | none => exact .nil
    | some pair =>
      obtain ⟨⟨func, kind⟩, label⟩ := pair
      cases kind with
      | main => exact .nil
      | startingConditional => exact flows_own (by simp) rfl rfl
  have hstep {label : Label} (hlabel : CallReturns c.analysis A.routines label 0) :
      Flows (LineEffect c (CallReturns c.analysis A.routines) (· ≤ 255)) (fun _ => none) exit
        [Op.jump .call label] exit := Flows.call (.call hlabel) (.cast .nil (Int.add_zero _))
  have hcall : Flows (LineEffect c (CallReturns c.analysis A.routines) (· ≤ 255)) (fun _ => none) exit
      (loaderCall A.entry (A.init.map Routine.label)) exit := by
    cases hinit : A.init with
    | some r =>
      refine hstep ⟨r, by simp [Assembly.routines, hinit], rfl, ?_⟩
      cases h.init r hinit with
      | mk _ _ _ _ _ => exact .globals rfl
    | none =>
      cases hentry : A.entry with
      | none => exact .nil
      | some pair => exact hstep (h.entryReturns hitems hentry)
  refine (hresult.append hcall).routineOk (h.jumps A.loader (by simp [Assembly.routines])) (by simp) ?_
  rw [← hexit]
  exact .loader rfl

end Program

/-- **Every routine of a program without errors is balanced**: its lines have depths such that every way
of control changes the depth by the effect of the line that is left, and calls by what the routine that
is called leaves. -/
theorem Accepted.balanced {engine : EngineTable} {program : Program} (h : Accepted engine program)
    (hsmall : (check engine program).analysis.structs.Small) (hargs : FewArgs program.exprs)
    {code : Code} (hcode : generate engine program (check engine program).analysis = .ok code) :
    ∀ r ∈ code.routines, RoutineOk (Accepted.context engine program) code.routines r := by
  obtain ⟨A, hroutines, -, hA⟩ := h.markedCode hsmall hcode
  rw [hroutines]
  intro r hr
  have hc := h.contextOk hsmall
  simp only [Assembly.routines, mem_append, mem_singleton, Option.mem_toList, mem_map] at hr
  rcases hr with (rfl | hr) | ⟨p, hp, rfl⟩
  · exact hA.routineOk_loader h.programOk
  · exact hA.routineOk_globals hc h.programOk hargs hr
  · exact hA.routineOk_function hc hargs hp

def Expr.argCount : Expr → Nat
  | .call _ _ args => args.length
  | _ => 0

theorem fewArgs_of_argCount_le {es : List Expr} (h : ∀ e ∈ es, e.argCount ≤ 255) : FewArgs es :=
  fun _ _ _ hmem => h _ hmem

theorem Sample.fewArgs : FewArgs Sample.program.exprs := fewArgs_of_argCount_le (by decide +kernel)

theorem Accepted.balanced_sample :
    ∃ code, generate Sample.engine Sample.program (check Sample.engine Sample.program).analysis =
      .ok code ∧
      ∀ r ∈ code.routines, RoutineOk (Accepted.context Sample.engine Sample.program) code.routines r := by
  obtain ⟨code, hcode⟩ := Sample.generated
  exact ⟨code, hcode, Accepted.balanced Sample.accepted Sample.small Sample.fewArgs hcode⟩

end Nwscript
