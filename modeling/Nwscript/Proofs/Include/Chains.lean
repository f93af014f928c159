import Nwscript.Proofs.Include.Loading

/-! # Chains of files

Every file but the entry file was pulled in by an earlier one. So the way up from a file ends at the
entry file, and the names on it are the chain that is reported for the file. -/

open List

namespace Nwscript

namespace SourceFiles

/-- The names on the way from one file down to another, along the files that pulled each other in. -/
inductive Path (files : SourceFiles) (root : FileId) : FileId → List String → Prop where
  | root {file} : files.get? root = some file → Path files root root [file.name]
  | child {id parent file names} :
      files.get? id = some file → file.parent = some parent → Path files root parent names →
      Path files root id (names ++ [file.name])

/-- The first file is the entry file, and every other was pulled in by an earlier one. -/
structure Rooted (files : SourceFiles) (entry : SourceFile) : Prop where
  entry_first : files.get? 0 = some entry
  entry_parent : entry.parent = none
  parent_lt : ∀ id file, files.get? id = some file → 0 < id → ∃ p < id, file.parent = some p

variable {files : SourceFiles} {entry : SourceFile} {id : FileId} {names : List String}

theorem Path.ends (h : Path files 0 id names) (he : files.get? 0 = some entry) :
    names.head? = some entry.name ∧
      ∃ file, files.get? id = some file ∧ names.getLast? = some file.name := by
  induction h with
  | root hfile =>
    cases hfile.symm.trans he
    exact ⟨rfl, _, he, rfl⟩
  | child hfile _ _ ih =>
    exact ⟨by rw [head?_append, ih.1, Option.some_or], _, hfile, getLast?_concat⟩

theorem Path.namesUp_eq (h : Path files 0 id names) (he : files.Rooted entry) {steps : Nat}
    (hsteps : names.length ≤ steps) : files.namesUp steps (some id) = names.reverse := by
  induction h generalizing steps with
  | root hfile =>
    cases hfile.symm.trans he.entry_first
    obtain ⟨n, rfl⟩ := Nat.exists_eq_add_of_le' hsteps
    have hnone : files.namesUp n none = [] := by cases n <;> rfl
    simp only [length_singleton, namesUp, hfile, he.entry_parent, hnone]
    rfl
  | child hfile hparent _ ih =>
    rw [length_append, length_singleton] at hsteps
    obtain ⟨n, rfl⟩ := Nat.exists_eq_add_of_le' hsteps
    have hup := ih (Nat.le_add_left _ n)
    rw [← Nat.add_assoc, namesUp]
    simp only [hfile, hparent, hup, reverse_append]
    rfl

theorem get?_lt {file : SourceFile} (h : files.get? id = some file) : id < files.size :=
  (Array.getElem?_eq_some_iff.mp h).1

namespace Rooted

theorem length_le (he : files.Rooted entry) (h : Path files 0 id names) : names.length ≤ id + 1 := by
  induction h with
  | root => simp
  | @child id parent file _ hfile hparent _ ih =>
    have hpos : 0 < id := by
      rcases Nat.eq_zero_or_pos id with rfl | hpos
      · cases hfile.symm.trans he.entry_first
        cases he.entry_parent.symm.trans hparent
      · exact hpos
    obtain ⟨p, hp, hfp⟩ := he.parent_lt id file hfile hpos
    cases hfp.symm.trans hparent
    rw [length_append, length_singleton]
    exact Nat.succ_le_succ (ih.trans hp)

theorem chain_eq (he : files.Rooted entry) (h : Path files 0 id names) (hid : id < files.size) :
    files.chain id = names := by
  have hlength : names.length ≤ files.size := (he.length_le h).trans hid
  rw [chain, h.namesUp_eq he hlength, reverse_reverse]

theorem exists_path (he : files.Rooted entry) (hid : id < files.size) :
    ∃ names, Path files 0 id names := by
  induction id using Nat.strong_induction_on with
  | h id ih =>
    rcases Nat.eq_zero_or_pos id with rfl | hpos
    · exact ⟨_, .root he.entry_first⟩
    · have hfile : files.get? id = some files.files[id] := Array.getElem?_eq_getElem hid
      obtain ⟨p, hp, hparent⟩ := he.parent_lt id _ hfile hpos
      obtain ⟨names, hnames⟩ := ih p hp (hp.trans hid)
      exact ⟨_, .child hfile hparent hnames⟩

theorem path_chain (he : files.Rooted entry) (hid : id < files.size) :
    Path files 0 id (files.chain id) := by
  obtain ⟨names, hnames⟩ := he.exists_path hid
  rwa [he.chain_eq hnames hid]

end Rooted
end SourceFiles

namespace LoadState

variable {s s' : LoadState} {entry : SourceFile}

theorem get?_take_lt (s : LoadState) (parent : FileId) (name : String) (pos : Pos) (found : Found)
    {id : FileId} (hid : id < s.files.size) :
    (s.take parent name pos found).files.get? id = s.files.get? id := by
  rw [get?_eq, get?_eq, getElem?_of_grows (by simp) hid]

theorem path_of_grows (h : s.fileList <+: s'.fileList) {id : FileId} {names : List String}
    (hp : s.files.Path 0 id names) : s'.files.Path 0 id names := by
  have hkeep {id : FileId} {file : SourceFile} (hfile : s.files.get? id = some file) :
      s'.files.get? id = some file := by
    rw [get?_eq] at hfile ⊢
    exact kept_of_grows h hfile
  induction hp with
  | root hfile => exact .root (hkeep hfile)
  | child hfile hparent _ ih => exact .child (hkeep hfile) hparent ih

theorem Step.rooted (h : Step s s') (hs : s.files.Rooted entry) : s'.files.Rooted entry := by
  cases h with
  | @take parent name pos found _ hparent =>
    refine ⟨?_, hs.entry_parent, fun id file hfile hid => ?_⟩
    · rw [get?_take_lt s parent name pos found (SourceFiles.get?_lt hs.entry_first)]
      exact hs.entry_first
    · have hlt := SourceFiles.get?_lt hfile
      rw [size_take] at hlt
      rcases Nat.lt_or_eq_of_le (Nat.le_of_lt_succ hlt) with hlt | rfl
      · rw [get?_take_lt s parent name pos found hlt] at hfile
        exact hs.parent_lt id file hfile hid
      · rw [get?_eq, getElem?_take] at hfile
        cases hfile
        exact ⟨parent, hparent, rfl⟩
  | close => exact hs

/-- A note on a file that comes from the bundled library stands at a directive of the file that
pulled it in. -/
def Notes (file : SourceFile) (note : Diagnostic) : Prop :=
  ∃ pos, note = bundledNote file.name pos ∧ file.parent = some pos.file

/-- The notes are those on the files from the bundled library, in the order of loading. -/
def Noted (s : LoadState) : Prop :=
  List.Forall₂ Notes (s.fileList.filter fun file => file.origin = .bundled) s.diagnostics

theorem Step.noted (h : Step s s') (hs : s.Noted) : s'.Noted := by
  cases h with
  | @take parent name pos found hpos _ =>
    by_cases hb : found.origin = .bundled
    · have hdiag : (s.take parent name pos found).diagnostics =
          s.diagnostics ++ [bundledNote name pos] := by
        simp [LoadState.take, diagnostics, hb]
      have hlast : List.Forall₂ Notes [⟨name, found.text, found.origin, some parent⟩]
          [bundledNote name pos] := .cons ⟨pos, rfl, congrArg some hpos.symm⟩ .nil
      rw [Noted, fileList_take, filter_append, hdiag]
      simpa [hb] using rel_append hs hlast
    · have hdiag : (s.take parent name pos found).diagnostics = s.diagnostics := by
        simp [LoadState.take, diagnostics, hb]
      rw [Noted, fileList_take, filter_append, hdiag]
      simpa [hb, Noted] using hs
  | close => exact hs

theorem Reaches.rooted (h : Reaches s s') (hs : s.files.Rooted entry) : s'.files.Rooted entry := by
  induction h with
  | refl => exact hs
  | tail _ hstep ih => exact hstep.rooted ih

theorem Reaches.noted (h : Reaches s s') (hs : s.Noted) : s'.Noted := by
  induction h with
  | refl => exact hs
  | tail _ hstep ih => exact hstep.noted ih

end LoadState

end Nwscript
