import Nwscript.Proofs.Code.State
import Nwscript.Proofs.Parser.Walk

/-! # What code generation writes

A run of code generation that ends has written lines, handed out labels and found functions to
generate. `Emits` says all of this of one stretch of lines, and stretches can be joined: every mark
is a label of the stretch, every jump within the routine goes to a mark of the stretch or to a label
from outside, and every function that is new is called.

An event is a line that copies, compares, cuts or calls. The events of a stretch are listed in order,
with the sizes and the numbers before they are narrowed to operands. -/

open List

namespace Nwscript

variable {op : Op} {i : Instr}

theorem Between.append {m n k : Nat} {xs ys : List Nat} (h : Between m n xs) (h' : Between n k ys) :
    Between m k (xs ++ ys) := by
  refine ⟨Nat.le_trans h.le h'.le, ?_, fun i hi => ?_⟩
  · refine nodup_append'.mpr ⟨h.nodup, h'.nodup, fun i hx hy => ?_⟩
    have := h.range i hx
    have := h'.range i hy
    omega
  · have := h.le
    have := h'.le
    rcases mem_append.mp hi with hi | hi
    · have := h.range i hi
      omega
    · have := h'.range i hi
      omega

/-! ## Runs that end -/

namespace Gen

variable {α β : Type}

/-- If a run ends, it ends with `Q`. -/
abbrev Yields (g : Gen α) (s : GenState) (Q : α → GenState → Prop) : Prop := Ends (fun _ => True) g s Q

variable {g : Gen α} {s : GenState} {Q R : α → GenState → Prop}

theorem yields_throw (fault : GenFault) : Yields (throw fault) s Q := trivial

theorem Ends.bind {E : GenFault → Prop} {k : α → Gen β} {Q : β → GenState → Prop} (h : Ends E g s R)
    (hk : ∀ a s', R a s' → Ends E (k a) s' Q) : Ends E (g >>= k) s Q :=
  ends_bind.mpr (h.mono hk)

theorem Ends.ite {E : GenFault → Prop} {c : Prop} [Decidable c] {g' : Gen α} (h : Ends E g s Q)
    (h' : Ends E g' s Q) : Ends E (if c then g else g') s Q := by
  split
  · exact h
  · exact h'

theorem yields_orFault (fault : GenFault) (x : Option α) :
    Yields (orFault fault x) s fun a s' => x = some a ∧ s' = s := by
  cases x with
  | none => exact yields_throw fault
  | some a => exact (ends_pure a).mpr ⟨rfl, rfl⟩

theorem Ends.found {k : α → Gen β} {Q : β → GenState → Prop} {fault : GenFault} {x : Option α}
    (hk : ∀ a, x = some a → Yields (k a) s Q) : Yields (orFault fault x >>= k) s Q := by
  refine (yields_orFault fault x).bind ?_
  rintro a s' ⟨hx, rfl⟩
  exact hk a hx

end Gen

structure GenState.Same (s s' : GenState) : Prop where
  nextLabel : s'.nextLabel = s.nextLabel
  funcLabels : s'.funcLabels = s.funcLabels
  queue : s'.queue = s.queue

namespace GenState.Same

theorem refl (s : GenState) : Same s s := ⟨rfl, rfl, rfl⟩

theorem trans {s s₁ s₂ : GenState} (h : Same s s₁) (h' : Same s₁ s₂) : Same s s₂ :=
  ⟨h'.nextLabel.trans h.nextLabel, h'.funcLabels.trans h.funcLabels, h'.queue.trans h.queue⟩

end GenState.Same

namespace Gen

open GenState (Same)

/-- A step that touches neither labels nor functions. -/
def Quiet {α : Type} (g : Gen α) : Prop := ∀ s, Yields g s fun _ s' => Same s s'

section Quiet

variable {α β : Type} {g : Gen α} {k : α → Gen β}

theorem Quiet.bind (hg : Quiet g) (hk : ∀ a, Quiet (k a)) : Quiet (g >>= k) :=
  fun s => (hg s).bind fun a s₁ h₁ => (hk a s₁).mono fun _ _ h₂ => h₁.trans h₂

theorem quiet_pure (a : α) : Quiet (pure a) := fun s => (ends_pure a).mpr (.refl s)

theorem quiet_throw (fault : GenFault) : Quiet (throw fault : Gen α) := fun _ => yields_throw fault

theorem quiet_get : Quiet get := fun s => ends_get.mpr (.refl s)

theorem quiet_modify {f : GenState → GenState} (h : ∀ s, Same s (f s)) : Quiet (modify f) :=
  fun s => ends_modify.mpr (h s)

theorem quiet_ite {c : Prop} [Decidable c] {g g' : Gen α} (hg : Quiet g) (hg' : Quiet g') :
    Quiet (if c then g else g') := by
  split
  · exact hg
  · exact hg'

theorem quiet_depth : Quiet depth := quiet_get.bind fun _ => quiet_pure _

theorem quiet_setDepth (d : Int) : Quiet (setDepth d) := quiet_modify fun _ => ⟨rfl, rfl, rfl⟩

theorem quiet_fit (bytes : Int) : Quiet (fit bytes) := quiet_ite (quiet_pure _) (quiet_throw _)

theorem quiet_addDepth (effect : Int) : Quiet (addDepth effect) :=
  quiet_depth.bind fun _ => (quiet_fit _).bind fun _ => quiet_setDepth _

theorem quiet_label (label : Label) : Quiet (Gen.bind label) := by
  intro s
  refine ends_bind.mpr (ends_get.mpr ?_)
  split
  · exact quiet_ite (quiet_pure _) (quiet_throw _) s
  · exact ends_set.mpr ⟨rfl, rfl, rfl⟩

theorem quiet_checkDepth (expected : Int) (routine : String) : Quiet (checkDepth expected routine) :=
  quiet_depth.bind fun _ => quiet_ite (quiet_pure _) (quiet_throw _)

theorem quiet_orFault (fault : GenFault) (x : Option α) : Quiet (orFault fault x) := by
  cases x with
  | none => exact quiet_throw fault
  | some a => exact quiet_pure a

theorem quiet_address (c : GenContext) (var : VarId) (offset : Int) : Quiet (address c var offset) := by
  refine Quiet.bind ?_ fun slot => ?_
  · refine quiet_get.bind fun s => ?_
    split
    · exact quiet_pure _
    · exact quiet_pure _
    · exact (quiet_orFault _ _).bind fun _ => quiet_throw _
  · cases slot with
    | stack bottom => exact quiet_depth.bind fun _ => (quiet_fit _).bind fun _ => quiet_pure _
    | global start => exact (quiet_fit _).bind fun _ => quiet_pure _

end Quiet

end Gen

/-! ## Events -/

/-- What a line does that narrows a number or calls something, as the tree gives it. -/
inductive Event where
  /-- Push a copy. -/
  | load (size : Int)
  /-- Copy the top of the stack. -/
  | store (size : Int)
  | compare (size : Int)
  | destruct (size offset keep : Int)
  /-- A call of a function of the program by a node, or by the start of the unit. -/
  | call (node : Option NodeId) (func : FuncId)
  /-- A call of a function of the engine. -/
  | action (node : NodeId) (ordinal : UInt16) (argc : Nat)
  deriving DecidableEq

def Op.isEvent : Op → Bool
  | .instr (.copyTop _ _ _) | .instr (.copyDown _ _ _) | .instr (.compare _ _)
  | .instr (.destruct _ _ _) | .instr (.action _ _) | .jump .call _ => true
  | _ => false

/-- The line of an event, given the labels of the functions. Sizes become operands of 16 bits, the
number of arguments one of 8 bits. -/
inductive Event.Line (labels : List (FuncId × Label)) : Event → Op → Prop where
  | load (base : Base) (offset : Int32) (size : Int) :
      Line labels (.load size) (.instr (.copyTop base offset (.ofInt size)))
  | store (base : Base) (offset : Int32) (size : Int) :
      Line labels (.store size) (.instr (.copyDown base offset (.ofInt size)))
  | compare (opcode : UInt8) (size : Int) :
      Line labels (.compare size) (.instr (.compare opcode (.ofInt size)))
  | destruct (size offset keep : Int) :
      Line labels (.destruct size offset keep)
        (.instr (.destruct (.ofInt size) (.ofInt offset) (.ofInt keep)))
  | call {node func label} :
      (func, label) ∈ labels → Line labels (.call node func) (.jump .call label)
  | action (node : NodeId) (ordinal : UInt16) (argc : Nat) :
      Line labels (.action node ordinal argc) (.instr (.action ordinal argc.toUInt8))

theorem Event.Line.isEvent {event : Event} {labels : List (FuncId × Label)}
    (h : event.Line labels op) : op.isEvent = true := by
  cases h <;> rfl

theorem Event.Line.mono {event : Event} {labels labels' : List (FuncId × Label)}
    (h : event.Line labels op) (hs : labels ⊆ labels') : event.Line labels' op := by
  cases h with
  | load base offset size => exact .load base offset size
  | store base offset size => exact .store base offset size
  | compare opcode size => exact .compare opcode size
  | destruct size offset keep => exact .destruct size offset keep
  | call hfunc => exact .call (hs hfunc)
  | action node ordinal argc => exact .action node ordinal argc

/-! ## Stretches of lines -/

/-- The functions in `new` got labels, the last one first, and were put into the queue. -/
structure GenState.Grows (new : List (FuncId × Label)) (s s' : GenState) : Prop where
  labels : s'.funcLabels = new ++ s.funcLabels
  queue : s'.queue = s.queue ++ (new.map Prod.fst).reverse
  once : (new.map Prod.fst).Nodup
  absent : ∀ func ∈ new.map Prod.fst, func ∉ s.funcLabels.map Prod.fst

open GenState (Same Grows)

theorem GenState.Same.grows {s s' : GenState} (h : Same s s') : Grows [] s s' :=
  ⟨h.funcLabels, by simp [h.queue], nodup_nil, by simp⟩

theorem GenState.Grows.trans {new new' : List (FuncId × Label)} {s s₁ s₂ : GenState}
    (h : Grows new s s₁) (h' : Grows new' s₁ s₂) : Grows (new' ++ new) s s₂ where
  labels := by rw [h'.labels, h.labels, append_assoc]
  queue := by simp [h'.queue, h.queue]
  once := by
    rw [map_append]
    refine nodup_append'.mpr ⟨h'.once, h.once, fun func hnew hold => ?_⟩
    refine h'.absent func hnew ?_
    rw [h.labels, map_append]
    exact mem_append_left _ hold
  absent := by
    intro func hfunc
    rw [map_append] at hfunc
    rcases mem_append.mp hfunc with hfunc | hfunc
    · intro hold
      refine h'.absent func hfunc ?_
      rw [h.labels, map_append]
      exact mem_append_right _ hold
    · exact h.absent func hfunc

/-- What a stretch of lines holds, with the functions `new` and the labels `fresh` of its own. It
marks the labels `own` besides, and leaves the labels `spare` to be marked later. -/
structure Emission (new : List (FuncId × Label)) (fresh : List Label) (outer own spare : List Label)
    (events : List Event) (s : GenState) (ops : List Op) (s' : GenState) : Prop where
  grows : Grows new s s'
  between : Between s.nextLabel s'.nextLabel (fresh ++ (spare ++ new.map Prod.snd))
  marks : (marks ops).Perm (own ++ fresh)
  called : ∀ p ∈ new, Op.jump .call p.2 ∈ ops
  jumps : ∀ kind label, Op.jump kind label ∈ ops → kind ≠ .call →
    label ∈ outer ∨ label ∈ Nwscript.marks ops
  events : List.Forall₂ (Event.Line s'.funcLabels) events (ops.filter Op.isEvent)

/-- Lines that were written between two states. Jumps may go to the labels `outer`. -/
def Emits (outer own spare : List Label) (events : List Event) (s : GenState) (ops : List Op)
    (s' : GenState) : Prop :=
  ∃ new fresh, Emission new fresh outer own spare events s ops s'

namespace Emits

variable {outer outer' own own' spare spare' : List Label} {events events' : List Event}
  {s s₁ s' : GenState} {ops ops' : List Op}

theorem line (h : Same s s') (hevent : op.isEvent = false) (hmarks : marks [op] = [])
    (hjump : ∀ kind label, op = .jump kind label → label ∈ outer) : Emits outer [] [] [] s [op] s' := by
  refine ⟨[], [], h.grows, ?_, by rw [hmarks]; exact .refl _, by simp, ?_, ?_⟩
  · exact .nil h.nextLabel.ge
  · intro kind label hmem _
    exact .inl (hjump kind label (mem_singleton.mp hmem).symm)
  · simp [hevent]

theorem quiet (h : Same s s') : Emits [] [] [] [] s [] s' :=
  ⟨[], [], h.grows, .nil h.nextLabel.ge, .refl _, by simp, by simp, .nil⟩

theorem instr (h : Same s s') (hevent : (Op.instr i).isEvent = false) :
    Emits [] [] [] [] s [.instr i] s' := .line h hevent rfl (by simp)

theorem jump {kind : JumpKind} {label : Label} (h : Same s s') (hkind : kind ≠ .call) :
    Emits [label] [] [] [] s [.jump kind label] s' := by
  refine .line h ?_ rfl (by simp)
  cases kind with
  | call => exact absurd rfl hkind
  | _ => rfl

theorem event {event : Event} (h : Same s s') (hline : event.Line s'.funcLabels op) :
    Emits [] [] [] [event] s [op] s' := by
  have hmarks : marks [op] = [] := by cases hline <;> rfl
  refine ⟨[], [], h.grows, .nil h.nextLabel.ge, by rw [hmarks]; exact .refl _, by simp, ?_, ?_⟩
  · intro kind label hmem hkind
    obtain rfl := mem_singleton.mp hmem
    cases hline
    exact absurd rfl hkind
  · simpa [hline.isEvent] using hline

theorem mark (label : Label) (h : Same s s') : Emits [] [label] [] [] s [.mark label] s' := by
  refine ⟨[], [], h.grows, .nil h.nextLabel.ge, .refl _, by simp, by simp, ?_⟩
  simp [Op.isEvent]

theorem spareLabel : Emits [] [] [s.nextLabel] [] s [] { s with nextLabel := s.nextLabel + 1 } := by
  refine ⟨[], [], ⟨rfl, by simp, nodup_nil, by simp⟩, ?_, .refl _, by simp, by simp, .nil⟩
  exact (Between.nil (Nat.le_refl s.nextLabel)).cons_next

theorem append (h : Emits outer own spare events s ops s₁)
    (h' : Emits outer' own' spare' events' s₁ ops' s') :
    Emits (outer ++ outer') (own ++ own') (spare ++ spare') (events ++ events') s (ops ++ ops') s' := by
  obtain ⟨new, fresh, h⟩ := h
  obtain ⟨new', fresh', h'⟩ := h'
  refine ⟨new' ++ new, fresh ++ fresh', h.grows.trans h'.grows, ?_, ?_, ?_, ?_, ?_⟩
  · refine (h.between.append h'.between).perm ?_
    rw [map_append, perm_iff_count]
    intro label
    simp only [count_append]
    omega
  · rw [marks_append]
    refine (h.marks.append h'.marks).trans ?_
    rw [perm_iff_count]
    intro label
    simp only [count_append]
    omega
  · intro p hp
    rcases mem_append.mp hp with hp | hp
    · exact mem_append_right _ (h'.called p hp)
    · exact mem_append_left _ (h.called p hp)
  · intro kind label hmem hkind
    rw [marks_append, mem_append, mem_append]
    rcases mem_append.mp hmem with hmem | hmem
    · exact (h.jumps kind label hmem hkind).imp .inl .inl
    · exact (h'.jumps kind label hmem hkind).imp .inr .inr
  · rw [filter_append]
    refine rel_append ?_ h'.events
    refine h.events.imp fun event op hline => hline.mono ?_
    rw [h'.grows.labels]
    exact subset_append_right _ _

theorem after (h : Emits outer own spare events s₁ ops s') (h₁ : Same s s₁) :
    Emits outer own spare events s ops s' := (Emits.quiet h₁).append h

theorem outer_mono (h : Emits outer own spare events s ops s') (hs : outer ⊆ outer') :
    Emits outer' own spare events s ops s' := by
  obtain ⟨new, fresh, h⟩ := h
  refine ⟨new, fresh, h.grows, h.between, h.marks, h.called, fun kind label hmem hkind => ?_, h.events⟩
  exact (h.jumps kind label hmem hkind).imp_left fun hl => hs hl

theorem settle (h : Emits outer own spare events s ops s') (hp : own.Perm spare)
    (hs : outer ⊆ spare ++ outer') : Emits outer' [] [] events s ops s' := by
  obtain ⟨new, fresh, h⟩ := h
  have hmarks : (marks ops).Perm (spare ++ fresh) := h.marks.trans (hp.append_right _)
  refine ⟨new, spare ++ fresh, h.grows, ?_, hmarks, h.called, ?_, h.events⟩
  · refine h.between.perm ?_
    rw [perm_iff_count]
    intro label
    simp only [count_append, count_nil]
    omega
  · intro kind label hmem hkind
    rcases h.jumps kind label hmem hkind with hl | hl
    · rcases mem_append.mp (hs hl) with hl | hl
      · exact .inr (hmarks.mem_iff.mpr (mem_append_left _ hl))
      · exact .inl hl
    · exact .inr hl

theorem of_ops (h : Emits outer own spare events s ops s') (ho : ops = ops') :
    Emits outer own spare events s ops' s' := ho ▸ h

theorem of_events (h : Emits outer own spare events s ops s') (he : events = events') :
    Emits outer own spare events' s ops s' := he ▸ h

theorem before (h : Emits outer own spare events s ops s₁) (h₁ : Same s₁ s') :
    Emits outer own spare events s ops s' := by
  have hlines := (h.append (.quiet h₁)).of_ops (append_nil ops)
  simpa only [append_nil] using hlines

theorem withLabel {label : Label} (h : Emits outer own spare events s ops s₁)
    (h₁ : Emits [] [] [label] [] s₁ [] s') : Emits outer own (spare ++ [label]) events s ops s' := by
  have hlines := (h.append h₁).of_ops (append_nil ops)
  simpa only [append_nil] using hlines

end Emits

/-! ## Steps -/

namespace Gen

def Writes (g : Gen (List Op)) (outer : List Label) (events : List Event) : Prop :=
  ∀ s, Yields g s fun ops s' => Emits outer [] [] events s ops s'

variable {outer : List Label} {events events' : List Event}

theorem Writes.outer_mono {g : Gen (List Op)} {outer' : List Label} (h : Writes g outer events)
    (hs : outer ⊆ outer') : Writes g outer' events :=
  fun s => (h s).mono fun _ _ he => he.outer_mono hs

theorem Writes.of_events {g : Gen (List Op)} (h : Writes g outer events) (he : events = events') :
    Writes g outer events' := he ▸ h

theorem Quiet.writes {α : Type} {g : Gen α} {k : α → Gen (List Op)} (hg : Quiet g)
    (hk : ∀ a, Writes (k a) outer events) : Writes (g >>= k) outer events :=
  fun s => (hg s).bind fun a s₁ h₁ => (hk a s₁).mono fun _ _ h₂ => h₂.after h₁

theorem Writes.found {α : Type} {k : α → Gen (List Op)} {fault : GenFault} {x : Option α}
    (hk : ∀ a, x = some a → Writes (k a) outer events) : Writes (orFault fault x >>= k) outer events :=
  fun s => .found fun a ha => hk a ha s

theorem writes_nil : Writes (pure []) [] [] := fun s => (ends_pure _).mpr (.quiet (.refl s))

theorem writes_throw (fault : GenFault) : Writes (throw fault) outer events :=
  fun _ => yields_throw fault

theorem Writes.append {g g' : Gen (List Op)} (h : Writes g outer events)
    (h' : Writes g' outer events') :
    Writes (do let first ← g; return first ++ (← g')) outer (events ++ events') :=
  fun s => (h s).bind fun _ s₁ h₁ => (h' s₁).bind fun _ _ h₂ =>
    (ends_pure _).mpr ((h₁.append h₂).outer_mono (by simp))

theorem yields_newLabel (s : GenState) :
    Yields newLabel s fun label s' => Emits [] [] [label] [] s [] s' :=
  ends_newLabel.mpr .spareLabel

theorem writes_emit (h : (Op.instr i).isEvent = false) : Writes (emit i) [] [] :=
  fun s => (quiet_addDepth _ s).bind fun _ _ hs => (ends_pure _).mpr (.instr hs h)

theorem writes_event {event : Event} (h : ∀ labels, event.Line labels (.instr i)) :
    Writes (emit i) [] [event] :=
  fun s => (quiet_addDepth _ s).bind fun _ _ hs => (ends_pure _).mpr (.event hs (h _))

theorem writes_jump {kind : JumpKind} (label : Label) (hkind : kind ≠ .call) :
    Writes (jump kind label) [label] [] :=
  fun s => (quiet_addDepth _ s).bind fun _ s₁ h₁ => (quiet_label label s₁).bind fun _ _ h₂ =>
    (ends_pure _).mpr (.jump (h₁.trans h₂) hkind)

theorem yields_mark (label : Label) (s : GenState) :
    Yields (mark label) s fun ops s' => Emits [] [label] [] [] s ops s' :=
  (quiet_label label s).bind fun _ _ hs => (ends_pure _).mpr (.mark label hs)

theorem writes_moveSp (offset : Int) : Writes (moveSp offset) [] [] :=
  (quiet_fit offset).writes fun _ => writes_emit rfl

theorem writes_popTo (target : Int) : Writes (popTo target) [] [] := by
  refine quiet_depth.writes fun depth => ?_
  dsimp only
  split
  · exact writes_nil
  split
  · exact writes_moveSp _
  · exact writes_throw _

end Gen

/-! ## Runs behind written lines -/

section Onward

open Gen

variable {α β : Type} {outer outer' own own' spare spare' : List Label} {events events' : List Event}
  {s s₁ : GenState} {ops : List Op} {Q : β → GenState → Prop}

theorem Emits.start (s : GenState) : Emits [] [] [] [] s [] s := .quiet (.refl s)

theorem Emits.then {g : Gen (List Op)} {k : List Op → Gen β} (h : Emits outer own spare events s ops s₁)
    (hg : ∀ s, Yields g s fun ops' s' => Emits outer' own' spare' events' s ops' s')
    (hk : ∀ ops' s', Emits (outer ++ outer') (own ++ own') (spare ++ spare') (events ++ events') s
      (ops ++ ops') s' → Yields (k ops') s' Q) : Yields (g >>= k) s₁ Q :=
  (hg s₁).bind fun ops' s' h' => hk ops' s' (h.append h')

theorem Emits.label {k : Label → Gen β} (h : Emits outer own spare events s ops s₁)
    (hk : ∀ label s', Emits outer own (spare ++ [label]) events s ops s' → Yields (k label) s' Q) :
    Yields (newLabel >>= k) s₁ Q :=
  (yields_newLabel s₁).bind fun label s' h' => hk label s' (h.withLabel h')

theorem Emits.quietly {g : Gen α} {k : α → Gen β} (h : Emits outer own spare events s ops s₁)
    (hg : Quiet g) (hk : ∀ a s', Emits outer own spare events s ops s' → Yields (k a) s' Q) :
    Yields (g >>= k) s₁ Q :=
  (hg s₁).bind fun a s' h' => hk a s' (h.before h')

theorem Emits.settled (h : Emits outer own spare events s ops s₁) (hp : own.Perm spare)
    (hs : outer ⊆ spare ++ outer') (he : events = events') :
    Yields (pure ops) s₁ fun ops' s' => Emits outer' [] [] events' s ops' s' :=
  (ends_pure ops).mpr ((h.settle hp hs).of_events he)

end Onward

end Nwscript
