import Mathlib
import Nwscript.Include.Load
import Nwscript.Proofs.Token.Coverage

/-! # What loading does

Loading takes files one after the other and closes each behind all it includes. A run that succeeds
is described as a relation over the directives of a file; a run that fails still ends in a state that
such steps reach. -/

namespace Nwscript

/-! ## Results of runs -/

section Results

variable {ε σ α β : Type} {m : EStateM ε σ α} {k : α → EStateM ε σ β} {s s' : σ} {a : α} {b : β}
  {e : ε}

theorem run_bind_ok (h : m s = .ok a s') : (m >>= k) s = k a s' := by
  show EStateM.bind m k s = _
  rw [EStateM.bind, h]

theorem run_bind_error (h : m s = .error e s') : (m >>= k) s = .error e s' := by
  show EStateM.bind m k s = _
  rw [EStateM.bind, h]

theorem run_bind_eq_ok (h : (m >>= k) s = .ok b s') : ∃ a s₁, m s = .ok a s₁ ∧ k a s₁ = .ok b s' := by
  cases hm : m s with
  | ok a s₁ => exact ⟨a, s₁, rfl, by rwa [run_bind_ok hm] at h⟩
  | error e s₁ =>
    rw [run_bind_error hm] at h
    cases h

theorem run_pure_inj {a' : α} (h : (pure a : EStateM ε σ α) s = .ok a' s') : a = a' ∧ s = s' := by
  cases h
  exact ⟨rfl, rfl⟩

end Results

/-! ## Steps -/

namespace LoadState

def bundledNote (name : String) (pos : Pos) : Diagnostic :=
  { stage := .including, severity := .info, code := .resolvedFromBundledLibrary,
    message := "include \"" ++ name ++ "\" resolved from the bundled library", pos := some pos }

def take (s : LoadState) (parent : FileId) (name : String) (pos : Pos) (found : Found) :
    LoadState :=
  { s with
    files := ⟨s.files.files.push
      { name, text := found.text, origin := found.origin, parent := some parent }⟩
    notes := if found.origin = .bundled then bundledNote name pos :: s.notes else s.notes }

def close (s : LoadState) (name : String) : LoadState := { s with expanded := name :: s.expanded }

def fileList (s : LoadState) : List SourceFile := s.files.files.toList

variable (s : LoadState) (parent : FileId) (name : String) (pos : Pos) (found : Found)

@[simp] theorem fileList_take : (s.take parent name pos found).fileList =
    s.fileList ++ [⟨name, found.text, found.origin, some parent⟩] := by
  simp [fileList, take]

@[simp] theorem fileList_close : (s.close name).fileList = s.fileList := rfl

@[simp] theorem expanded_take : (s.take parent name pos found).expanded = s.expanded := rfl

@[simp] theorem expanded_close : (s.close name).expanded = name :: s.expanded := rfl

@[simp] theorem notes_close : (s.close name).notes = s.notes := rfl

@[simp] theorem files_close : (s.close name).files = s.files := rfl

theorem length_fileList : s.fileList.length = s.files.size := Array.length_toList

@[simp] theorem size_take : (s.take parent name pos found).files.size = s.files.size + 1 := by
  simp [take, SourceFiles.size]

theorem get?_eq (id : FileId) : s.files.get? id = s.fileList[id]? := by
  rw [SourceFiles.get?, fileList, Array.getElem?_toList]

/-- A file is taken for a directive of a file that is there, or a file is closed. -/
inductive Step : LoadState → LoadState → Prop where
  | take {s : LoadState} {parent : FileId} {name : String} {pos : Pos} {found : Found} :
      pos.file = parent → parent < s.files.size → Step s (s.take parent name pos found)
  | close {s : LoadState} {name : String} : Step s (s.close name)

abbrev Reaches : LoadState → LoadState → Prop := Relation.ReflTransGen Step

theorem Step.grows {s s' : LoadState} (h : Step s s') : s.fileList <+: s'.fileList := by
  cases h with
  | take => simp
  | close => simp

theorem Reaches.grows {s s' : LoadState} (h : Reaches s s') : s.fileList <+: s'.fileList := by
  induction h with
  | refl => exact List.prefix_refl _
  | tail _ hstep ih => exact ih.trans hstep.grows

theorem getElem?_of_grows {s s' : LoadState} (h : s.fileList <+: s'.fileList) {id : FileId}
    (hid : id < s.files.size) : s'.fileList[id]? = s.fileList[id]? := by
  obtain ⟨rest, hrest⟩ := h
  rw [← hrest, List.getElem?_append_left (by rwa [length_fileList])]

theorem kept_of_grows {s s' : LoadState} (h : s.fileList <+: s'.fileList) {id : FileId}
    {file : SourceFile} (hfile : s.fileList[id]? = some file) : s'.fileList[id]? = some file := by
  have hid := (List.getElem?_eq_some_iff.mp hfile).1
  rw [length_fileList] at hid
  rw [getElem?_of_grows h hid, hfile]

theorem getElem?_take (s : LoadState) (parent : FileId) (name : String) (pos : Pos)
    (found : Found) : (s.take parent name pos found).fileList[s.files.size]? =
      some ⟨name, found.text, found.origin, some parent⟩ := by
  rw [fileList_take, ← length_fileList, List.getElem?_concat_length]

end LoadState

open LoadState

/-! ## Directives -/

theorem file_of_mem_directives {text : String} {file : FileId} {d : String × Pos}
    (h : d ∈ directives text file) : d.2.file = file := by
  obtain ⟨t, ht, rfl⟩ := List.mem_map.mp h
  obtain ⟨r, hr, hrt⟩ := List.mem_filterMap.mp (List.mem_of_mem_filter ht)
  cases r with
  | error e => cases hrt
  | ok t' =>
    cases hrt
    exact file_of_mem_lex hr

namespace Load

def stateOf {α : Type} : EStateM.Result Fatal LoadState α → LoadState
  | .ok _ s => s
  | .error _ s => s

/-- What following a directive comes to: nothing if its file is there, else what its loader makes of
the file that is found, unless a check fails before. -/
inductive Directed (r : Resolver) (dir : Option Provider) (expanding : List String) (parent : FileId)
    (loader : Option FileLoader) (name : String) (pos : Pos) (s : LoadState) :
    EStateM.Result Fatal LoadState Inclusion → Prop where
  | skipped : name ∈ s.expanded ∨ name ∈ expanding →
      Directed r dir expanding parent loader name pos s (.ok .skipped s)
  | refused {e} : Directed r dir expanding parent loader name pos s (.error e s)
  | loaded {load found children s₁} :
      name ∉ s.expanded → name ∉ expanding → loader = some load →
      r.resolveFrom dir name = .ok (some found) →
      load (name :: expanding) s.files.size found.text (s.take parent name pos found) =
        .ok children s₁ →
      Directed r dir expanding parent loader name pos s
        (.ok (.loaded s.files.size children) (s₁.close name))
  | failed {load found e s₁} :
      loader = some load →
      load (name :: expanding) s.files.size found.text (s.take parent name pos found) =
        .error e s₁ →
      Directed r dir expanding parent loader name pos s (.error e s₁)

theorem take_apply {α : Type} (s : LoadState) (parent : FileId) (name : String) (pos : Pos)
    (found : Found) (k : FileId → Load α) :
    (do
      if found.origin = .bundled then noteBundled name pos
      let file ← addFile { name, text := found.text, origin := found.origin, parent := some parent }
      k file : Load α) s = k s.files.size (s.take parent name pos found) := by
  by_cases hb : found.origin = .bundled
  · simp only [hb, if_true, take]
    rfl
  · simp only [hb, if_false, take]
    rfl

theorem directed (r : Resolver) (dir : Option Provider) (expanding : List String) (parent : FileId)
    (loader : Option FileLoader) (name : String) (pos : Pos) (s : LoadState) :
    Directed r dir expanding parent loader name pos s
      (directive r dir expanding parent loader name pos s) := by
  have hget {α : Type} (k : LoadState → Load α) : (get >>= k) s = k s s := rfl
  unfold directive
  rw [hget]
  by_cases hknown : name ∈ s.expanded ∨ name ∈ expanding
  · rw [if_pos (by simpa using hknown)]
    exact .skipped hknown
  · rw [if_neg (by simpa using hknown)]
    rw [not_or] at hknown
    cases loader with
    | none => exact .refused
    | some load =>
      dsimp only
      cases hfound : r.resolveFrom dir name with
      | error e => exact .refused
      | ok found? =>
        cases found? with
        | none => exact .refused
        | some found =>
          dsimp only
          rw [take_apply]
          cases hload : load (name :: expanding) s.files.size found.text
              (s.take parent name pos found) with
          | error e s₁ =>
            rw [run_bind_error hload]
            exact .failed rfl hload
          | ok children s₁ =>
            rw [run_bind_ok hload]
            exact .loaded hknown.1 hknown.2 rfl hfound hload

/-! ## Runs that succeed -/

/-- A run over directives of the file `parent`, with at most `depth` more levels: the directives, what
they pulled in, and the states before and behind it. -/
inductive Follows (r : Resolver) (dir : Option Provider) : Nat → List String → FileId →
    LoadState → List (String × Pos) → List Inclusion → LoadState → Prop where
  | done {depth expanding parent s} :
      Follows r dir depth expanding parent s [] [] s
  | skip {depth expanding parent s s' name pos rest is} :
      name ∈ s.expanded ∨ name ∈ expanding → Follows r dir depth expanding parent s rest is s' →
      Follows r dir depth expanding parent s ((name, pos) :: rest) (.skipped :: is) s'
  | load {depth expanding parent s s₁ s' name pos rest found children is} :
      name ∉ s.expanded → name ∉ expanding → r.resolveFrom dir name = .ok (some found) →
      Follows r dir depth (name :: expanding) s.files.size (s.take parent name pos found)
        (directives found.text s.files.size) children s₁ →
      Follows r dir (depth + 1) expanding parent (s₁.close name) rest is s' →
      Follows r dir (depth + 1) expanding parent s ((name, pos) :: rest)
        (.loaded s.files.size children :: is) s'

variable {r : Resolver} {dir : Option Provider} {depth : Nat} {expanding : List String}
  {parent : FileId} {s s' : LoadState}

def Describes (r : Resolver) (dir : Option Provider) (depth : Nat) (load : FileLoader) : Prop :=
  ∀ expanding id text s is s', load expanding id text s = .ok is s' →
    Follows r dir depth expanding id s (directives text id) is s'

theorem follows_follow {loader : Option FileLoader} {ds : List (String × Pos)} {is : List Inclusion}
    (hloader : ∀ load, loader = some load → ∃ d, depth = d + 1 ∧ Describes r dir d load)
    (h : follow (directive r dir expanding parent loader) ds s = .ok is s') :
    Follows r dir depth expanding parent s ds is s' := by
  induction ds generalizing s is with
  | nil =>
    obtain ⟨rfl, rfl⟩ := run_pure_inj h
    exact .done
  | cons d rest ih =>
    obtain ⟨name, pos⟩ := d
    rw [follow] at h
    obtain ⟨first, s₁, hfirst, h⟩ := run_bind_eq_ok h
    obtain ⟨is', s₂, hrest, h⟩ := run_bind_eq_ok h
    obtain ⟨rfl, rfl⟩ := run_pure_inj h
    have hd := directed r dir expanding parent loader name pos s
    rw [hfirst] at hd
    cases hd with
    | skipped hknown => exact .skip hknown (ih hrest)
    | loaded hexpanded hexpanding hload hfound hchildren =>
      obtain ⟨d, rfl, hdesc⟩ := hloader _ hload
      exact .load hexpanded hexpanding hfound (hdesc _ _ _ _ _ _ hchildren) (ih hrest)

theorem describes_file (r : Resolver) (dir : Option Provider) (depth : Nat) :
    Describes r dir depth (file r dir depth) := by
  induction depth with
  | zero =>
    intro expanding id text s is s' h
    exact follows_follow (fun _ hload => by cases hload) h
  | succ depth ih =>
    intro expanding id text s is s' h
    refine follows_follow (fun load hload => ⟨depth, rfl, ?_⟩) h
    cases hload
    exact ih

/-! ## All runs -/

def Steps (load : FileLoader) : Prop :=
  ∀ expanding id text s, id < s.files.size → Reaches s (stateOf (load expanding id text s))

theorem reaches_directive (r : Resolver) (dir : Option Provider) (expanding : List String)
    (name : String) {loader : Option FileLoader} {pos : Pos}
    (hloader : ∀ load, loader = some load → Steps load) (hpos : pos.file = parent)
    (hparent : parent < s.files.size) :
    Reaches s (stateOf (directive r dir expanding parent loader name pos s)) := by
  have hload (load : FileLoader) (found : Found) (hl : loader = some load) :
      Reaches s (stateOf (load (name :: expanding) s.files.size found.text
        (s.take parent name pos found))) := by
    have hsize : s.files.size < (s.take parent name pos found).files.size := by simp
    exact (hloader load hl _ _ _ _ hsize).head (.take hpos hparent)
  have hd := directed r dir expanding parent loader name pos s
  generalize directive r dir expanding parent loader name pos s = result at hd
  cases hd with
  | skipped => exact .refl
  | refused => exact .refl
  | @loaded load found children s₁ _ _ hl _ hchildren =>
    have h := hload load found hl
    rw [hchildren] at h
    exact h.tail .close
  | @failed load found e s₁ hl herror =>
    have h := hload load found hl
    rwa [herror] at h

theorem reaches_follow {loader : Option FileLoader} {ds : List (String × Pos)}
    (hloader : ∀ load, loader = some load → Steps load) (hds : ∀ d ∈ ds, d.2.file = parent)
    (hparent : parent < s.files.size) :
    Reaches s (stateOf (follow (directive r dir expanding parent loader) ds s)) := by
  induction ds generalizing s with
  | nil => exact .refl
  | cons d rest ih =>
    have hfirst := reaches_directive r dir expanding d.1 hloader (hds d (.head _)) hparent
    rw [follow]
    cases hd : directive r dir expanding parent loader d.1 d.2 s with
    | error e s₁ =>
      rw [hd] at hfirst
      rwa [run_bind_error hd]
    | ok first s₁ =>
      rw [hd] at hfirst
      have hsize : parent < s₁.files.size := by
        have := hfirst.grows.length_le
        rw [length_fileList, length_fileList] at this
        exact Nat.lt_of_lt_of_le hparent this
      have hrest := ih (fun d' hd' => hds d' (.tail _ hd')) hsize
      rw [run_bind_ok hd]
      refine hfirst.trans ?_
      cases hf : follow (directive r dir expanding parent loader) rest s₁ with
      | error e s₂ =>
        rw [hf] at hrest
        rwa [run_bind_error hf]
      | ok is s₂ =>
        rw [hf] at hrest
        rwa [run_bind_ok hf]

theorem steps_file (r : Resolver) (dir : Option Provider) (depth : Nat) : Steps (file r dir depth) := by
  induction depth with
  | zero =>
    intro expanding id text s hid
    exact reaches_follow (fun _ hload => by cases hload) (fun _ => file_of_mem_directives) hid
  | succ depth ih =>
    intro expanding id text s hid
    refine reaches_follow (fun load hload => ?_) (fun _ => file_of_mem_directives) hid
    cases hload
    exact ih

end Load

end Nwscript
