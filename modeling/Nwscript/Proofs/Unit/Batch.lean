import Mathlib
import Nwscript.CommandLine

/-! # Batches on several workers

Files compiled by workers that share a flag and the number of the next file. A worker reads the flag,
takes a number and compiles that file, again and again; a schedule says whose turn it is, and when
the flag is set. Whatever the schedule, the numbers taken have no gap, so the outputs in the order of
their numbers are those of a front part of the files, and of all files if the flag is never set. -/

open List

namespace Nwscript.Batch

/-! ## Workers and schedules -/

inductive Phase where
  /-- Read the flag. -/
  | polling
  /-- Take the next number. -/
  | claiming
  | compiling (index : Nat) (path : String)
  | stopped

/-- A worker, with the numbers and outputs of the files it has compiled. -/
structure Worker where
  phase : Phase := .polling
  done : List (Nat × Option CompileOutput) := []

structure State where
  /-- The work is to stop. -/
  cancelled : Bool
  /-- The number that is taken next. -/
  next : Nat := 0
  workers : List Worker

inductive Turn where
  | cancel
  | worker (index : Nat)
  deriving DecidableEq

section Runs

variable (compile : String → Option CompileOutput) (paths : List String)

/-- A worker after its turn, and the number that is taken next. -/
def Worker.move (cancelled : Bool) (next : Nat) (w : Worker) : Worker × Nat :=
  match w.phase with
  | .polling => ({ w with phase := if cancelled then .stopped else .claiming }, next)
  | .claiming =>
    match paths[next]? with
    | some path => ({ w with phase := .compiling next path }, next + 1)
    | none => ({ w with phase := .stopped }, next + 1)
  | .compiling index path => ({ phase := .polling, done := w.done ++ [(index, compile path)] }, next)
  | .stopped => (w, next)

/-- The state after a turn. The turn of a worker that is not there changes nothing. -/
def State.turn (s : State) : Turn → State
  | .cancel => { s with cancelled := true }
  | .worker i =>
    match s.workers[i]? with
    | some w =>
      { s with
        next := (w.move compile paths s.cancelled s.next).2
        workers := s.workers.set i (w.move compile paths s.cancelled s.next).1 }
    | none => s

def State.run (s : State) (schedule : List Turn) : State := schedule.foldl (State.turn compile paths) s

end Runs

/-- The workers before their first turn: as many as asked for, at least one, and no more than there
are files. -/
def State.start (paths : List String) (jobs : Nat) (cancelled : Bool) : State :=
  { cancelled, workers := List.replicate (min (max jobs 1) paths.length) {} }

def Phase.isStopped : Phase → Bool
  | .stopped => true
  | _ => false

def State.finished (s : State) : Bool := s.workers.all fun w => w.phase.isStopped

def State.compiled (s : State) : List (Nat × Option CompileOutput) := s.workers.flatMap Worker.done

def State.outputs (s : State) : List (Option CompileOutput) :=
  (s.compiled.mergeSort fun a b => a.1 ≤ b.1).map Prod.snd

/-- What the batch gives at the end. One file without an output leaves them all without, so it does not
show what its worker does behind it. -/
def State.returned (s : State) : Option (List CompileOutput) := s.outputs.mapM id

/-! ## Turns -/

section Runs

variable (compile : String → Option CompileOutput) (paths : List String)

theorem State.turn_cases (s : State) (t : Turn) :
    (t = .cancel ∧ s.turn compile paths t = { s with cancelled := true }) ∨
      (t ≠ .cancel ∧ s.turn compile paths t = s) ∨
      ∃ before w after, t ≠ .cancel ∧ s.workers = before ++ w :: after ∧
        s.turn compile paths t =
          { s with
            next := (w.move compile paths s.cancelled s.next).2
            workers := before ++ (w.move compile paths s.cancelled s.next).1 :: after } := by
  cases t with
  | cancel => exact .inl ⟨rfl, rfl⟩
  | worker i =>
    simp only [turn]
    cases hw : s.workers[i]? with
    | none => exact .inr (.inl ⟨nofun, rfl⟩)
    | some w =>
      obtain ⟨hi, rfl⟩ := List.getElem?_eq_some_iff.mp hw
      refine .inr (.inr ⟨s.workers.take i, s.workers[i], s.workers.drop (i + 1), nofun, ?_, ?_⟩)
      · rw [getElem_cons_drop, take_append_drop]
      · simp only [set_eq_take_append_cons_drop, if_pos hi]

theorem State.run_keeps {P : State → Prop} (hturn : ∀ s t, P s → P (s.turn compile paths t))
    {s : State} (hs : P s) (schedule : List Turn) : P (s.run compile paths schedule) := by
  induction schedule generalizing s with
  | nil => exact hs
  | cons t schedule ih => exact ih (hturn s t hs)

/-! ## Numbers -/

def Phase.pending : Phase → List Nat
  | .compiling index _ => [index]
  | _ => []

def Worker.taken (w : Worker) : List Nat := w.done.map Prod.fst ++ w.phase.pending

/-- What a worker holds belongs to the files: a pending number names its path, and an output is that
of the file with its number. -/
structure Worker.Sound (w : Worker) : Prop where
  pending : ∀ index path, w.phase = .compiling index path → paths[index]? = some path
  done : ∀ r ∈ w.done, paths[r.1]?.map compile = some r.2

/-- The numbers taken are those below the next one that name a file, each once. A worker stops only
when the flag is set or the files are used up. -/
structure State.Consistent (s : State) : Prop where
  taken : (s.workers.flatMap Worker.taken).Perm (List.range (min s.next paths.length))
  sound : ∀ w ∈ s.workers, w.Sound compile paths
  stopped : ∀ w ∈ s.workers, w.phase = .stopped → s.cancelled = true ∨ paths.length < s.next

variable {compile paths} {w : Worker} {i : Nat}

theorem Worker.Sound.move (h : w.Sound compile paths) (cancelled : Bool) (next : Nat) :
    (w.move compile paths cancelled next).1.Sound compile paths := by
  obtain ⟨phase, done⟩ := w
  cases phase with
  | polling => cases cancelled <;> exact ⟨nofun, h.done⟩
  | claiming =>
    simp only [Worker.move]
    cases hp : paths[next]? with
    | none => exact ⟨nofun, h.done⟩
    | some path =>
      refine ⟨fun index path' heq => ?_, h.done⟩
      obtain ⟨rfl, rfl⟩ := Phase.compiling.inj heq
      exact hp
  | compiling index path =>
    refine ⟨nofun, fun r hr => ?_⟩
    rcases mem_append.mp hr with hr | hr
    · exact h.done r hr
    · obtain rfl := mem_singleton.mp hr
      rw [h.pending index path rfl, Option.map_some]
  | stopped => exact h

variable (compile paths) in
theorem Worker.taken_move (w : Worker) (cancelled : Bool) (next : Nat) :
    ∃ new, (w.move compile paths cancelled next).1.taken = w.taken ++ new ∧
      List.range (min (w.move compile paths cancelled next).2 paths.length) =
        List.range (min next paths.length) ++ new := by
  obtain ⟨phase, done⟩ := w
  cases phase with
  | polling => cases cancelled <;> exact ⟨[], by simp [move, taken, Phase.pending]⟩
  | claiming =>
    simp only [Worker.move]
    cases hp : paths[next]? with
    | none =>
      have hle : paths.length ≤ next := List.getElem?_eq_none_iff.mp hp
      refine ⟨[], by simp [taken, Phase.pending], ?_⟩
      simp only [Nat.min_eq_right hle, Nat.min_eq_right (Nat.le_succ_of_le hle), append_nil]
    | some path =>
      have hlt : next < paths.length := (List.getElem?_eq_some_iff.mp hp).1
      refine ⟨[next], by simp [taken, Phase.pending], ?_⟩
      rw [Nat.min_eq_left hlt, Nat.min_eq_left (by omega), range_succ]
  | compiling index path => exact ⟨[], by simp [move, taken, Phase.pending]⟩
  | stopped => exact ⟨[], by simp [move]⟩

theorem Worker.move_stopped {cancelled : Bool} {next : Nat}
    (h : (w.move compile paths cancelled next).1.phase = .stopped) :
    w.phase = .stopped ∨ cancelled = true ∨ paths.length < (w.move compile paths cancelled next).2 := by
  obtain ⟨phase, done⟩ := w
  cases phase with
  | polling =>
    cases cancelled with
    | true => exact .inr (.inl rfl)
    | false => cases h
  | claiming =>
    simp only [Worker.move] at h ⊢
    cases hp : paths[next]? with
    | none =>
      have hle : paths.length ≤ next := List.getElem?_eq_none_iff.mp hp
      exact .inr (.inr (Nat.lt_succ_of_le hle))
    | some path =>
      rw [hp] at h
      cases h
  | compiling index path => cases h
  | stopped => exact .inl rfl

variable (compile paths) in
theorem Worker.next_le_move (w : Worker) (cancelled : Bool) (next : Nat) :
    next ≤ (w.move compile paths cancelled next).2 := by
  obtain ⟨phase, done⟩ := w
  cases phase with
  | claiming =>
    simp only [Worker.move]
    cases paths[next]? <;> exact Nat.le_succ next
  | _ => exact Nat.le_refl next

theorem State.Consistent.turn {s : State} (h : s.Consistent compile paths) (t : Turn) :
    (s.turn compile paths t).Consistent compile paths := by
  rcases s.turn_cases compile paths t with ⟨-, hs⟩ | ⟨-, hs⟩ | ⟨before, w, after, -, hw, hs⟩
  · rw [hs]
    exact ⟨h.taken, h.sound, fun _ _ _ => .inl rfl⟩
  · rw [hs]
    exact h
  · have hmem : w ∈ s.workers := by simp [hw]
    have hothers : ∀ v ∈ before ++ (w.move compile paths s.cancelled s.next).1 :: after,
        v = (w.move compile paths s.cancelled s.next).1 ∨ v ∈ s.workers := by
      intro v hv
      rw [hw]
      simp only [mem_append, mem_cons] at hv ⊢
      tauto
    rw [hs]
    refine ⟨?_, fun v hv => ?_, fun v hv hstop => ?_⟩
    · obtain ⟨new, htaken, hrange⟩ :=
        Worker.taken_move compile paths w s.cancelled s.next
      have hperm := h.taken.append_right new
      rw [hw] at hperm
      rw [hrange]
      refine List.Perm.trans ?_ hperm
      simp only [flatMap_append, flatMap_cons, htaken, append_assoc]
      exact ((perm_append_comm).append_left _).append_left _
    · rcases hothers v hv with rfl | hv
      · exact (h.sound w hmem).move s.cancelled s.next
      · exact h.sound v hv
    · have hnext := Worker.next_le_move compile paths w s.cancelled s.next
      have hkeep : s.cancelled = true ∨ paths.length < s.next →
          s.cancelled = true ∨ paths.length < (w.move compile paths s.cancelled s.next).2 :=
        Or.imp_right fun hlt => Nat.lt_of_lt_of_le hlt hnext
      rcases hothers v hv with rfl | hv
      · rcases Worker.move_stopped hstop with hw' | hmore
        · exact hkeep (h.stopped w hmem hw')
        · exact hmore
      · exact hkeep (h.stopped v hv hstop)

theorem State.Consistent.start (jobs : Nat) (cancelled : Bool) :
    (State.start paths jobs cancelled).Consistent compile paths := by
  have hworker : ∀ w ∈ (State.start paths jobs cancelled).workers, w = {} := fun w hw =>
    eq_of_mem_replicate hw
  refine ⟨?_, fun w hw => ?_, fun w hw hstop => ?_⟩
  · have hnone : (State.start paths jobs cancelled).workers.flatMap Worker.taken = [] :=
      flatMap_eq_nil_iff.mpr fun w hw => by rw [hworker w hw]; rfl
    rw [hnone]
    simp [State.start]
  · rw [hworker w hw]
    exact ⟨nofun, nofun⟩
  · rw [hworker w hw] at hstop
    cases hstop

/-! ## The flag -/

theorem State.cancelled_turn {s : State} {t : Turn} (ht : t ≠ .cancel) :
    (s.turn compile paths t).cancelled = s.cancelled := by
  rcases s.turn_cases compile paths t with ⟨h, -⟩ | ⟨-, hs⟩ | ⟨before, w, after, -, -, hs⟩
  · exact absurd h ht
  · rw [hs]
  · rw [hs]

theorem State.cancelled_run {s : State} {schedule : List Turn} (h : .cancel ∉ schedule) :
    (s.run compile paths schedule).cancelled = s.cancelled := by
  induction schedule generalizing s with
  | nil => rfl
  | cons t schedule ih =>
    rw [mem_cons, not_or] at h
    exact (ih h.2).trans (cancelled_turn (Ne.symm h.1))

variable (compile paths) in
theorem State.length_workers_run (s : State) (schedule : List Turn) :
    (s.run compile paths schedule).workers.length = s.workers.length := by
  refine State.run_keeps compile paths (P := fun s' => s'.workers.length = s.workers.length)
    (fun s' t h => ?_) rfl schedule
  rcases s'.turn_cases compile paths t with ⟨-, hs⟩ | ⟨-, hs⟩ | ⟨before, w, after, -, hw, hs⟩
  · rw [hs]
    exact h
  · rw [hs]
    exact h
  · rw [hs, ← h, hw]
    simp

structure State.Idle (s : State) : Prop where
  cancelled : s.cancelled = true
  next : s.next = 0
  phase : ∀ w ∈ s.workers, w.phase = .polling ∨ w.phase = .stopped

theorem State.Idle.turn {s : State} (h : s.Idle) (t : Turn) : (s.turn compile paths t).Idle := by
  rcases s.turn_cases compile paths t with ⟨-, hs⟩ | ⟨-, hs⟩ | ⟨before, w, after, -, hw, hs⟩
  · rw [hs]
    exact ⟨rfl, h.next, h.phase⟩
  · rw [hs]
    exact h
  · rw [hs]
    have hmove : (w.move compile paths s.cancelled s.next).2 = s.next ∧
        (w.move compile paths s.cancelled s.next).1.phase = .stopped := by
      rcases h.phase w (by simp [hw]) with hp | hp <;> simp [Worker.move, hp, h.cancelled]
    refine ⟨h.cancelled, hmove.1.trans h.next, fun v hv => ?_⟩
    rcases mem_append.mp hv with hv | hv
    · exact h.phase v (by simp [hw, hv])
    · rcases mem_cons.mp hv with rfl | hv
      · exact .inr hmove.2
      · exact h.phase v (by simp [hw, hv])

/-! ## The end -/

/-- How many turns a worker may still need before it takes another number. -/
def Phase.rank : Phase → Nat
  | .polling => 2
  | .claiming => 1
  | .compiling _ _ => 3
  | .stopped => 0

def State.rank (paths : List String) (s : State) : Nat :=
  3 * (paths.length - s.next) + (s.workers.map fun w => w.phase.rank).sum

variable (compile paths) in
theorem Worker.rank_move (hw : w.phase ≠ .stopped) (cancelled : Bool) (next : Nat) :
    3 * (paths.length - (w.move compile paths cancelled next).2) +
        (w.move compile paths cancelled next).1.phase.rank <
      3 * (paths.length - next) + w.phase.rank := by
  obtain ⟨phase, done⟩ := w
  cases phase with
  | polling => cases cancelled <;> simp [move, Phase.rank]
  | claiming =>
    simp only [Worker.move]
    cases hp : paths[next]? with
    | none => simp only [Phase.rank]; omega
    | some path =>
      have hlt : next < paths.length := (List.getElem?_eq_some_iff.mp hp).1
      simp only [Phase.rank]
      omega
  | compiling index path => simp [move, Phase.rank]
  | stopped => exact absurd rfl hw

theorem State.rank_turn {s : State} (hi : s.workers[i]? = some w)
    (hw : w.phase ≠ .stopped) : (s.turn compile paths (.worker i)).rank paths < s.rank paths := by
  obtain ⟨hlt, rfl⟩ := List.getElem?_eq_some_iff.mp hi
  have hmove := Worker.rank_move compile paths hw s.cancelled s.next
  have hsplit : s.workers = s.workers.take i ++ s.workers[i] :: s.workers.drop (i + 1) := by
    rw [getElem_cons_drop, take_append_drop]
  have hsum : (s.workers.map fun w => w.phase.rank).sum =
      ((s.workers.take i).map fun w => w.phase.rank).sum +
        (s.workers[i].phase.rank + ((s.workers.drop (i + 1)).map fun w => w.phase.rank).sum) := by
    conv_lhs => rw [hsplit]
    rw [map_append, sum_append, map_cons, sum_cons]
  simp only [turn, hi, rank, set_eq_take_append_cons_drop, if_pos hlt, map_append,
    sum_append, map_cons, sum_cons, hsum]
  omega

theorem State.rank_turn_le (s : State) (t : Turn) :
    (s.turn compile paths t).rank paths ≤ s.rank paths := by
  cases t with
  | cancel => exact Nat.le_refl _
  | worker i =>
    cases hi : s.workers[i]? with
    | none => simp [turn, hi]
    | some w =>
      by_cases hw : w.phase = .stopped
      · have hmove : w.move compile paths s.cancelled s.next = (w, s.next) := by
          simp [Worker.move, hw]
        obtain ⟨hlt, rfl⟩ := List.getElem?_eq_some_iff.mp hi
        simp [turn, hi, hmove]
      · exact Nat.le_of_lt (rank_turn hi hw)

theorem State.getElem?_turn {s : State} {t : Turn} (ht : t ≠ .worker i) :
    (s.turn compile paths t).workers[i]? = s.workers[i]? := by
  cases t with
  | cancel => rfl
  | worker j =>
    have hne : j ≠ i := fun h => ht (h ▸ rfl)
    simp only [turn]
    cases s.workers[j]? with
    | none => rfl
    | some w => exact getElem?_set_ne hne

def State.after (compile : String → Option CompileOutput) (paths : List String) (s : State)
    (turns : Nat → Turn) (n : Nat) : State :=
  s.run compile paths ((List.range n).map turns)

variable (compile paths) in
theorem State.after_succ (s : State) (turns : Nat → Turn) (n : Nat) :
    s.after compile paths turns (n + 1) =
      (s.after compile paths turns n).turn compile paths (turns n) := by
  simp [after, run, range_succ]

theorem State.rank_after {s : State} {turns : Nat → Turn} {n d : Nat}
    (hturn : turns (n + d) = .worker i)
    (hi : (s.after compile paths turns n).workers[i]? = some w) (hw : w.phase ≠ .stopped) :
    (s.after compile paths turns (n + d + 1)).rank paths <
      (s.after compile paths turns n).rank paths := by
  induction d generalizing n with
  | zero =>
    rw [Nat.add_zero] at hturn ⊢
    rw [after_succ, hturn]
    exact rank_turn hi hw
  | succ d ih =>
    have hmore (k : Nat) : (s.after compile paths turns (n + k + 1)).rank paths ≤
        (s.after compile paths turns (n + 1)).rank paths := by
      induction k with
      | zero => exact Nat.le_refl _
      | succ k ihk =>
        rw [after_succ]
        exact Nat.le_trans (rank_turn_le _ _) ihk
    have hstep := after_succ compile paths s turns n
    by_cases hn : turns n = .worker i
    · refine Nat.lt_of_le_of_lt (hmore (d + 1)) ?_
      rw [hstep, hn]
      exact rank_turn hi hw
    · have hshift : n + (d + 1) = n + 1 + d := by omega
      rw [hshift] at hturn ⊢
      refine Nat.lt_of_lt_of_le (ih hturn ?_) ?_
      · rw [hstep, getElem?_turn hn, hi]
      · rw [hstep]
        exact rank_turn_le _ _

def Fair (workers : Nat) (turns : Nat → Turn) : Prop :=
  ∀ i < workers, ∀ n, ∃ d, turns (n + d) = .worker i

theorem State.exists_finished {s : State} {turns : Nat → Turn} (h : Fair s.workers.length turns) :
    ∃ n, (s.after compile paths turns n).finished = true := by
  suffices hfrom : ∀ r n, (s.after compile paths turns n).rank paths = r →
      ∃ n, (s.after compile paths turns n).finished = true from hfrom _ 0 rfl
  intro r
  induction r using Nat.strong_induction_on with
  | _ r ih =>
    intro n hr
    by_cases hfin : (s.after compile paths turns n).finished = true
    · exact ⟨n, hfin⟩
    · have hlive : ∃ w ∈ (s.after compile paths turns n).workers, w.phase ≠ .stopped := by
        by_contra hall
        push Not at hall
        exact hfin (all_eq_true.mpr fun w hw => by rw [hall w hw]; rfl)
      obtain ⟨w, hmem, hw⟩ := hlive
      obtain ⟨i, hi⟩ := mem_iff_getElem?.mp hmem
      have hlt : i < s.workers.length := by
        rw [← length_workers_run compile paths s ((List.range n).map turns)]
        exact (List.getElem?_eq_some_iff.mp hi).1
      obtain ⟨d, hd⟩ := h i hlt n
      exact ih _ (hr ▸ rank_after hd hi hw) (n + d + 1) rfl

end Runs

/-! ## Outputs -/

section Outputs

variable {compile : String → Option CompileOutput} {paths : List String} {s : State}

theorem State.phase_of_finished {w : Worker} (h : s.finished = true) (hw : w ∈ s.workers) :
    w.phase = .stopped := by
  have hstop := all_eq_true.mp h w hw
  cases hp : w.phase with
  | stopped => rfl
  | _ => simp [hp, Phase.isStopped] at hstop

theorem State.Consistent.compiled_perm (h : s.Consistent compile paths) (hfin : s.finished = true) :
    (s.compiled.map Prod.fst).Perm (List.range (min s.next paths.length)) := by
  have htaken : s.compiled.map Prod.fst = s.workers.flatMap Worker.taken := by
    rw [State.compiled, map_flatMap]
    refine flatMap_congr fun w hw => ?_
    simp [Worker.taken, State.phase_of_finished hfin hw, Phase.pending]
  exact htaken ▸ h.taken

theorem map_range_getElem? {k : Nat} (hk : k ≤ paths.length) :
    (List.range k).map (fun i => paths[i]?.map compile) = ((paths.take k).map compile).map some := by
  refine ext_getElem (by simp [hk]) fun i hi _ => ?_
  have hlt : i < paths.length := by
    rw [length_map, length_range] at hi
    omega
  simp [hlt]

/-- At the end the outputs are those of the files whose numbers were taken, in order. -/
theorem State.Consistent.outputs_eq (h : s.Consistent compile paths) (hfin : s.finished = true) :
    s.outputs = (paths.take (min s.next paths.length)).map compile := by
  have hsound : ∀ r ∈ s.compiled, paths[r.1]?.map compile = some r.2 := by
    intro r hr
    obtain ⟨w, hw, hr⟩ := mem_flatMap.mp hr
    exact (h.sound w hw).done r hr
  have hsorted : (s.compiled.mergeSort fun a b => a.1 ≤ b.1).Pairwise fun a b => a.1 ≤ b.1 :=
    pairwise_mergeSort' _ _
  have hsame : (s.compiled.mergeSort fun a b => a.1 ≤ b.1).Perm s.compiled :=
    mergeSort_perm _ _
  rw [State.outputs]
  generalize (s.compiled.mergeSort fun a b => a.1 ≤ b.1) = sorted at hsorted hsame ⊢
  -- Sorted numbers without gap or repetition are the numbers in order.
  have hnumbers : sorted.map Prod.fst = List.range (min s.next paths.length) :=
    List.Perm.eq_of_pairwise (fun _ _ _ _ => Nat.le_antisymm) (pairwise_map.mpr hsorted)
      pairwise_le_range ((hsame.map Prod.fst).trans (h.compiled_perm hfin))
  have hvalues : (sorted.map Prod.snd).map some =
      ((paths.take (min s.next paths.length)).map compile).map some := by
    rw [← map_range_getElem? (Nat.min_le_right _ _), ← hnumbers, map_map, map_map]
    exact map_congr_left fun r hr => (hsound r (hsame.mem_iff.mp hr)).symm
  exact map_injective_iff.mpr (Option.some_injective _) hvalues

end Outputs

/-! ## Batches -/

theorem zip_map_take {α β : Type} (f : α → β) (xs : List α) (k : Nat) :
    xs.zip ((xs.take k).map f) = (xs.take k).map fun x => (x, f x) := by
  have hsplit : (xs.take k ++ xs.drop k).zip ((xs.take k).map f ++ []) =
      (xs.take k).zip ((xs.take k).map f) ++ (xs.drop k).zip [] :=
    zip_append (length_map _).symm
  rw [take_append_drop, append_nil, zip_nil_right, append_nil] at hsplit
  rw [hsplit, map_prod_left_eq_zip]

/-- If the flag is never set, all files are taken before the workers stop. -/
theorem State.Consistent.length_le_next {compile : String → Option CompileOutput} {paths : List String}
    {s : State} (h : s.Consistent compile paths) (hfin : s.finished = true)
    (hflag : s.cancelled = false) (hworkers : paths ≠ [] → s.workers ≠ []) : paths.length ≤ s.next := by
  by_cases hp : paths = []
  · rw [hp]
    exact Nat.zero_le _
  · obtain ⟨w, hw⟩ := exists_mem_of_ne_nil _ (hworkers hp)
    rcases h.stopped w hw (State.phase_of_finished hfin hw) with hset | hlt
    · cases hflag.symm.trans hset
    · exact Nat.le_of_lt hlt

theorem State.start_ne_nil {paths : List String} (jobs : Nat) (cancelled : Bool) (hp : paths ≠ []) :
    (State.start paths jobs cancelled).workers ≠ [] := by
  have hlen := length_pos_iff.mpr hp
  refine ne_nil_of_length_pos ?_
  rw [State.start, length_replicate]
  omega

/-- **A batch compiles a front part of its files, each once and in order.** Under every fair schedule
the workers come to their end. However their turns and the flag were mixed, at the end the outputs are
those of the first `k` files: all files if the flag is never set, none if it is set from the start. So
each output stands beside its own file, and the batch gives them, unless one of these files has none. -/
theorem outputs_of_schedule (c : Compiler) (t : FileTree) (paths : List String) (jobs : Nat)
    (cancelled : Bool) : (∀ turns, Fair (State.start paths jobs cancelled).workers.length turns →
      ∃ n, ((State.start paths jobs cancelled).after (c.compileFile t) paths turns n).finished = true) ∧
    ∀ schedule s, s = (State.start paths jobs cancelled).run (c.compileFile t) paths schedule →
      s.finished = true → ∃ k ≤ paths.length, s.outputs = (paths.take k).map (c.compileFile t) ∧
        (s.compiled.map Prod.fst).Perm (List.range k) ∧
        paths.zip s.outputs = (paths.take k).map (fun path => (path, c.compileFile t path)) ∧
        s.returned = (paths.take k).mapM (c.compileFile t) ∧
        (cancelled = false → Turn.cancel ∉ schedule →
          k = paths.length ∧ s.returned = c.compileFiles t false paths) ∧
        (cancelled = true → s.returned = c.compileFiles t true paths) := by
  refine ⟨fun turns => State.exists_finished, fun schedule s hrun hfin => ?_⟩
  have hs : s.Consistent (c.compileFile t) paths := hrun ▸
    State.run_keeps _ _ (P := State.Consistent (c.compileFile t) paths) (fun _ t h => h.turn t)
      (.start jobs cancelled) schedule
  have houtputs := hs.outputs_eq hfin
  have hreturned : s.returned = (paths.take (min s.next paths.length)).mapM (c.compileFile t) := by
    rw [State.returned, houtputs, mapM_map]
    rfl
  refine ⟨min s.next paths.length, Nat.min_le_right _ _, houtputs, hs.compiled_perm hfin, ?_, hreturned,
    fun hflag hnever => ?_, fun hflag => ?_⟩
  · rw [houtputs]
    exact zip_map_take _ _ _
  · have hset : s.cancelled = false := by rw [hrun, State.cancelled_run hnever, ← hflag]; rfl
    have hworkers : paths ≠ [] → s.workers ≠ [] := by
      intro hp
      have := State.start_ne_nil jobs cancelled hp
      rw [← length_pos_iff] at this ⊢
      rwa [hrun, State.length_workers_run]
    have hall : min s.next paths.length = paths.length :=
      Nat.min_eq_right (hs.length_le_next hfin hset hworkers)
    refine ⟨hall, ?_⟩
    rw [hreturned, hall, take_length]
    rfl
  · have hidle : s.Idle := hrun ▸ State.run_keeps _ _ (P := State.Idle) (fun _ t h => h.turn t)
      ⟨hflag, rfl, fun w hw => .inl (by rw [eq_of_mem_replicate hw])⟩ schedule
    rw [hreturned, hidle.next, Nat.zero_min, take_zero]
    rfl

/-- Two workers on three files, of which the second takes the first number; the flag is set while both
compile. -/
theorem outputs_of_schedule_cancelled :
    let c : Compiler := { engine := { version := "", checksum := 0 } }
    let paths := ["a.nss", "b.nss", "c.nss"]
    let schedule : List Turn :=
      [.worker 0, .worker 1, .worker 1, .worker 0, .cancel, .worker 0, .worker 1, .worker 0, .worker 1]
    let s := (State.start paths 2 false).run (c.compileFile {}) paths schedule
    Fair (State.start paths 2 false).workers.length (fun n => .worker (n % 2)) ∧ s.finished = true ∧
      paths.zip s.outputs =
        [("a.nss", c.compileFile {} "a.nss"), ("b.nss", c.compileFile {} "b.nss")] := by
  intro c paths schedule s
  -- Neither the phases nor the numbers depend on the outputs.
  have hrun (compile : String → Option CompileOutput) :
      ((State.start paths 2 false).run compile paths schedule).finished = true ∧
        (((State.start paths 2 false).run compile paths schedule).compiled.map Prod.fst).length = 2 := by
    simp [paths, schedule, State.start, State.run, State.turn, Worker.move, State.finished,
      State.compiled, Phase.isStopped]
  refine ⟨fun i hi n => ?_, (hrun _).1, ?_⟩
  · have hi : i < 2 := hi
    refine ⟨(i + n) % 2, ?_⟩
    show Turn.worker ((n + (i + n) % 2) % 2) = Turn.worker i
    congr 1
    omega
  · obtain ⟨k, -, -, hperm, hzip, -⟩ :=
      (outputs_of_schedule c {} paths 2 false).2 schedule s rfl (hrun _).1
    have hk : 2 = k := by
      rw [← (hrun (c.compileFile {})).2, hperm.length_eq, length_range]
    rw [hzip, ← hk]
    simp only [paths, take_succ_cons, take_zero, map_cons, map_nil]

end Nwscript.Batch
