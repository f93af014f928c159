import Nwscript.Proofs.Unit.Outcome

/-! # Directives that are skipped

A directive is skipped if it names a file that was included before, or has the name that keeps the
entry file from including itself. That name is the one of the unit, normalized twice: it is the name of
the entry file unless a file ending is left on it. -/

open List

namespace Nwscript

/-! ## Normal names -/

namespace Text

theorem toNat_toLowerAscii (c : Char) : (toLowerAscii c).toNat =
    if 65 ≤ c.toNat ∧ c.toNat ≤ 90 then c.toNat + 32 else c.toNat := by
  have hrange : 'A' ≤ c ∧ c ≤ 'Z' ↔ 65 ≤ c.toNat ∧ c.toNat ≤ 90 := Iff.rfl
  rw [toLowerAscii]
  by_cases h : 65 ≤ c.toNat ∧ c.toNat ≤ 90
  · rw [if_pos (hrange.mpr h), if_pos h, Char.toNat_ofNat, if_pos]
    exact .inl (by omega)
  · rw [if_neg (mt hrange.mp h), if_neg h]

theorem toLowerAscii_idem (c : Char) : toLowerAscii (toLowerAscii c) = toLowerAscii c := by
  refine Char.toNat_inj.mp ?_
  rw [toNat_toLowerAscii (toLowerAscii c), toNat_toLowerAscii c]
  split
  · split <;> omega
  · rfl

theorem isBlank_toLowerAscii (c : Char) : isBlank (toLowerAscii c) = isBlank c := by
  unfold isBlank
  simp only [toNat_toLowerAscii]
  split
  · grind
  · rfl

theorem trimStart_map (cs : List Char) :
    trimStart (cs.map toLowerAscii) = (trimStart cs).map toLowerAscii := by
  rw [trimStart, dropWhile_map, funext (f := isBlank ∘ toLowerAscii) isBlank_toLowerAscii, trimStart]

theorem trimStart_of_isPrefix {cs ds : List Char} (h : ds <+: cs) (hcs : trimStart cs = cs) :
    trimStart ds = ds := by
  cases ds with
  | nil => rfl
  | cons d ds =>
    obtain ⟨rest, rfl⟩ := h
    rw [trimStart, cons_append, dropWhile_cons] at hcs
    split at hcs
    · have := (dropWhile_sublist isBlank (l := ds ++ rest)).length_le
      rw [hcs, length_cons] at this
      omega
    · next hd => rw [trimStart, dropWhile_cons, if_neg hd]

theorem trimEnd_isPrefix (cs : List Char) : trimEnd cs <+: cs := by
  rw [trimEnd, ← reverse_suffix, reverse_reverse]
  exact dropWhile_suffix _

theorem trimEnd_trimEnd (cs : List Char) : trimEnd (trimEnd cs) = trimEnd cs := by
  rw [trimEnd, trimEnd, reverse_reverse, dropWhile_idempotent]

theorem dropEnding_isPrefix (ending cs : List Char) : dropEnding ending cs <+: cs := by
  rw [dropEnding]
  split
  · exact take_prefix _ _
  · exact prefix_refl _

theorem length_dropEnding_lt {ending cs : List Char} (hne : ending ≠ []) (h : ending <:+ cs) :
    (dropEnding ending cs).length < cs.length := by
  have hpos := length_pos_of_ne_nil hne
  have hle := h.length_le
  rw [dropEnding, if_pos (isSuffixOf_iff_suffix.mpr h), length_take]
  omega

theorem dropEnding_of_not_suffix {ending cs : List Char} (h : ¬ ending <:+ cs) :
    dropEnding ending cs = cs :=
  if_neg (mt isSuffixOf_iff_suffix.mp h)

/-- A text that normalizing changes by its file ending at most. -/
structure IsNormal (cs : List Char) : Prop where
  front : trimStart cs = cs
  back : trimEnd cs = cs
  lower : cs.map toLowerAscii = cs

end Text

open Text

theorem toList_normalizeName (name : String) : (normalizeName name).toList =
    trimEnd (dropEnding ".nss".toList ((trim name.toList).map toLowerAscii)) :=
  String.toList_ofList

theorem isNormal_normalizeName (name : String) : IsNormal (normalizeName name).toList := by
  rw [toList_normalizeName]
  set lower := (trim name.toList).map toLowerAscii with hlower
  have hinitial : trimEnd (dropEnding ".nss".toList lower) <+: lower :=
    (trimEnd_isPrefix _).trans (dropEnding_isPrefix _ _)
  have hfront : trimStart lower = lower := by
    have htrim : trimStart (trim name.toList) = trim name.toList :=
      trimStart_of_isPrefix (trimEnd_isPrefix _) (dropWhile_idempotent ..)
    rw [hlower, trimStart_map, htrim]
  refine ⟨trimStart_of_isPrefix hinitial hfront, trimEnd_trimEnd _, ?_⟩
  refine (map_congr_left fun c hc => ?_).trans (map_id _)
  obtain ⟨d, _, rfl⟩ := mem_map.mp (hinitial.subset hc)
  exact toLowerAscii_idem d

theorem normalizeName_normalizeName (name : String) :
    normalizeName (normalizeName name) = normalizeName name ↔
      ¬ ".nss".toList <:+ (normalizeName name).toList := by
  have h := isNormal_normalizeName name
  have htwice : (normalizeName (normalizeName name)).toList =
      trimEnd (dropEnding ".nss".toList (normalizeName name).toList) := by
    rw [toList_normalizeName (normalizeName name), trim, h.front, h.back, h.lower]
  rw [← String.toList_inj, htwice]
  constructor
  · intro heq hsuffix
    have hlt := length_dropEnding_lt (by decide) hsuffix
    have hle := (trimEnd_isPrefix (dropEnding ".nss".toList (normalizeName name).toList)).length_le
    rw [heq] at hle
    omega
  · intro hsuffix
    rw [dropEnding_of_not_suffix hsuffix, h.back]

/-! ## Moments of loading -/

open LoadState Load

namespace Load

/-- The loader of the files that directives name, with at most so many more levels. -/
def loaderOf (r : Resolver) (dir : Option Provider) : Nat → Option FileLoader
  | 0 => none
  | depth + 1 => some (file r dir depth)

structure Moment where
  depth : Nat
  expanding : List String
  parent : FileId
  name : String
  pos : Pos
  state : LoadState

def Moment.follow (r : Resolver) (dir : Option Provider) (m : Moment) :
    EStateM.Result Fatal LoadState Inclusion :=
  directive r dir m.expanding m.parent (loaderOf r dir m.depth) m.name m.pos m.state

/-- The moments of following directives: that of the first one, those of loading the file it names,
and those of the others if the first one succeeds. -/
inductive Meets (r : Resolver) (dir : Option Provider) : Nat → List String → FileId → LoadState →
    List (String × Pos) → Moment → Prop where
  | here {depth expanding parent s name pos rest} :
      Meets r dir depth expanding parent s ((name, pos) :: rest) ⟨depth, expanding, parent, name, pos, s⟩
  | inside {depth expanding parent s name pos rest found m} :
      name ∉ s.expanded → name ∉ expanding → r.resolveFrom dir name = .ok (some found) →
      Meets r dir depth (name :: expanding) s.files.size (s.take parent name pos found)
        (directives found.text s.files.size) m →
      Meets r dir (depth + 1) expanding parent s ((name, pos) :: rest) m
  | later {depth expanding parent s s₁ name pos rest i m} :
      directive r dir expanding parent (loaderOf r dir depth) name pos s = .ok i s₁ →
      Meets r dir depth expanding parent s₁ rest m →
      Meets r dir depth expanding parent s ((name, pos) :: rest) m

variable {r : Resolver} {dir : Option Provider} {depth : Nat} {expanding : List String}
  {parent : FileId} {s s' : LoadState} {ds : List (String × Pos)} {m : Moment} {entry : String}

theorem guarded_directive {name : String} {pos : Pos} {i : Inclusion}
    (h : directive r dir expanding parent (loaderOf r dir depth) name pos s = .ok i s')
    (hs : Guarded entry expanding s) : Guarded entry expanding s' ∧ s.fileList <+: s'.fileList := by
  have hd := directed r dir expanding parent (loaderOf r dir depth) name pos s
  rw [h] at hd
  cases hd with
  | skipped => exact ⟨hs, prefix_refl _⟩
  | @loaded load found children s₁ hexpanded hexpanding hload hfound hchildren =>
    cases depth with
    | zero => cases hload
    | succ depth =>
      cases hload
      have hfollows := describes_file r dir depth _ _ _ _ _ _ hchildren
      have hinner := hfollows.guarded (hs.take hexpanded hexpanding parent pos found)
      exact ⟨hinner.close hexpanding hs.entry_mem,
        (prefix_append _ _).trans (fileList_take s .. ▸ hfollows.grows)⟩

theorem Meets.guarded (h : Meets r dir depth expanding parent s ds m) (hs : Guarded entry expanding s) :
    Guarded entry m.expanding m.state ∧ s.fileList <+: m.state.fileList := by
  induction h with
  | here => exact ⟨hs, prefix_refl _⟩
  | @inside _ _ parent s _ pos _ found _ hexpanded hexpanding _ _ ih =>
    obtain ⟨hguarded, hgrows⟩ := ih (hs.take hexpanded hexpanding parent pos found)
    exact ⟨hguarded, (prefix_append _ _).trans (fileList_take s .. ▸ hgrows)⟩
  | later hfirst _ ih =>
    obtain ⟨hs₁, hgrows₁⟩ := guarded_directive hfirst hs
    obtain ⟨hguarded, hgrows⟩ := ih hs₁
    exact ⟨hguarded, hgrows₁.trans hgrows⟩

theorem Moment.follow_eq_skipped_iff (m : Moment) :
    m.follow r dir = .ok .skipped m.state ↔ m.name ∈ m.state.expanded ∨ m.name ∈ m.expanding := by
  constructor
  · intro h
    have hd := directed r dir m.expanding m.parent (loaderOf r dir m.depth) m.name m.pos m.state
    rw [Moment.follow] at h
    rw [h] at hd
    cases hd with
    | skipped hknown => exact hknown
  · intro h
    unfold Moment.follow directive
    show EStateM.bind get _ m.state = _
    rw [EStateM.bind]
    show (if _ then _ else _ : Load Inclusion) m.state = _
    rw [if_pos (by simpa using h)]
    rfl

end Load

/-! ## Units -/

namespace Compiler

variable (c : Compiler) (unitDir : Option Provider) (name source : String)

/-- The directives that a compilation of a unit comes to, each with the state at that moment. -/
def MeetsDirective (m : Moment) : Prop :=
  Meets c.resolver unitDir c.resolver.maxDepth [normalizeName (normalizeName name)] 0
    { files := ⟨#[entryFile name source]⟩ } (directives source 0) m

def Skips (m : Moment) : Prop := m.follow c.resolver unitDir = .ok .skipped m.state

variable {c unitDir name source} {m : Moment}

theorem MeetsDirective.guarded (h : c.MeetsDirective unitDir name source m) :
    Guarded (normalizeName (normalizeName name)) m.expanding m.state ∧
      ∃ rest, m.state.fileList = entryFile name source :: rest := by
  have hstart : Guarded (normalizeName (normalizeName name)) [normalizeName (normalizeName name)]
      { files := ⟨#[entryFile name source]⟩ } :=
    ⟨by simp [fileList], by simp [includedNames, fileList], by simp [includedNames, fileList],
      by simp, by simp [includedNames, fileList], by simp, by simp⟩
  obtain ⟨hguarded, rest, hrest⟩ := Meets.guarded h hstart
  exact ⟨hguarded, rest, hrest.symm⟩

/-- **A directive is skipped if it names a file that was included before, or has the name of the unit,
normalized twice.** Unless a file ending is left on the normal name of the unit, these are the names of
the files that are there; so what the files of a unit include is there when all is loaded. -/
theorem skips_iff_loaded (h : c.MeetsDirective unitDir name source m) :
    (c.Skips unitDir m ↔
        m.name = normalizeName (normalizeName name) ∨ m.name ∈ m.state.includedNames) ∧
      (¬ ".nss".toList <:+ (normalizeName name).toList →
        (c.Skips unitDir m ↔ ∃ file ∈ m.state.fileList, file.name = m.name) ∧
        ∀ tree s, c.load unitDir name source = .ok tree s →
          ∀ id file, s.files.get? id = some file → ∀ d ∈ directives file.text id,
            ∃ included ∈ s.fileList, included.name = d.1) := by
  obtain ⟨hguarded, rest, hrest⟩ := h.guarded
  have hskips : c.Skips unitDir m ↔
      m.name = normalizeName (normalizeName name) ∨ m.name ∈ m.state.includedNames := by
    refine (Moment.follow_eq_skipped_iff m).trans ⟨hguarded.known, fun hname => ?_⟩
    rcases hname with hname | hname
    · exact .inr (hname ▸ hguarded.entry_mem)
    · exact hguarded.guarded _ hname
  refine ⟨hskips, fun hending => ?_⟩
  have hstable := (normalizeName_normalizeName name).mpr hending
  constructor
  · rw [hskips, hstable, includedNames, hrest, tail_cons, mem_map, exists_mem_cons_iff]
    exact or_congr_left eq_comm
  · intro tree s hload id file hfile d hd
    have honce := loadIncludes_once _ _ _ _ _ _ hload
    by_cases hname : d.1 = normalizeName (normalizeName name)
    · refine ⟨entryFile name source, ?_, by rw [hname, hstable]; rfl⟩
      exact mem_of_getElem? (by rw [← get?_eq]; exact honce.rooted.entry_first)
    · obtain ⟨included, hmem, hincluded⟩ := mem_map.mp (honce.closed id file hfile d hd hname)
      exact ⟨included, mem_of_mem_tail hmem, hincluded⟩

end Compiler

namespace Sample

def compilerOf (texts : List (String × String)) : Compiler where
  engine := { version := "", checksum := 0 }
  resolver := { project := [.ofTexts "memory" texts], bundled := false }

/-- The file `b` is about to include `a`, which includes it. -/
def cycleMoment : Moment where
  depth := 62
  expanding := ["b", "a", "main"]
  parent := 2
  name := "a"
  pos := ⟨2, 1, 1⟩
  state := { cycleLoaded with expanded := [] }

/-- A unit that is about to include `a`, and has two file endings on that name. -/
def endingsMoment : Moment where
  depth := 64
  expanding := ["a"]
  parent := 0
  name := "a"
  pos := ⟨0, 1, 1⟩
  state := { files := ⟨#[⟨"a.nss", "#include \"a\"\n", .entry, none⟩]⟩ }

end Sample

theorem Compiler.skips_iff_loaded_cycle :
    (Sample.compilerOf Sample.cycleTexts).MeetsDirective none "main.nss" Sample.cycleEntry.text
        Sample.cycleMoment ∧
      (Sample.compilerOf Sample.cycleTexts).Skips none Sample.cycleMoment ∧
      ∃ file ∈ Sample.cycleMoment.state.fileList, file.name = "a" := by
  have hmain : directives Sample.cycleEntry.text 0 = [("a", ⟨0, 1, 1⟩), ("b", ⟨0, 2, 1⟩)] := by cbv
  have ha : directives "#include \"b\"\n#include \"main\"" 1 =
      [("b", ⟨1, 1, 1⟩), ("main", ⟨1, 2, 1⟩)] := by cbv
  have hb : directives "#include \"a\"\n" 2 = [("a", ⟨2, 1, 1⟩)] := by cbv
  have h : (Sample.compilerOf Sample.cycleTexts).MeetsDirective none "main.nss"
      Sample.cycleEntry.text Sample.cycleMoment := by
    have hname : normalizeName (normalizeName "main.nss") = "main" := by cbv
    have hentry : entryFile "main.nss" Sample.cycleEntry.text = Sample.cycleEntry := by cbv
    have hfoundA : Sample.cycleResolver.resolveFrom none "a" =
        .ok (some ⟨"#include \"b\"\n#include \"main\"", .provider "memory"⟩) := by cbv
    have hfoundB : Sample.cycleResolver.resolveFrom none "b" =
        .ok (some ⟨"#include \"a\"\n", .provider "memory"⟩) := by cbv
    rw [Compiler.MeetsDirective, hmain, hname, hentry]
    refine .inside (by decide) (by decide) hfoundA ?_
    refine ha ▸ .inside (by decide) (by decide) hfoundB ?_
    exact hb ▸ .here
  have hfile : ∃ file ∈ Sample.cycleMoment.state.fileList, file.name = "a" := by decide
  have hending : ¬ ".nss".toList <:+ (normalizeName "main.nss").toList := by decide +kernel
  exact ⟨h, ((Compiler.skips_iff_loaded h).2 hending).1.mpr hfile, hfile⟩

/-- The name that the unit is given keeps it from including the file, which was never loaded. -/
theorem Compiler.skips_unloaded :
    (Sample.compilerOf [("a", "void F() { }\n")]).MeetsDirective none "a.nss.nss" "#include \"a\"\n"
        Sample.endingsMoment ∧
      (Sample.compilerOf [("a", "void F() { }\n")]).Skips none Sample.endingsMoment ∧
      (∀ file ∈ Sample.endingsMoment.state.fileList, file.name ≠ "a") ∧
      (Sample.compilerOf [("a", "void F() { }\n")]).resolver.resolveFrom none "a" =
        .ok (some ⟨"void F() { }\n", .provider "memory"⟩) := by
  have hdirectives : directives "#include \"a\"\n" 0 = [("a", ⟨0, 1, 1⟩)] := by cbv
  have hname : normalizeName (normalizeName "a.nss.nss") = "a" := by cbv
  have hentry : entryFile "a.nss.nss" "#include \"a\"\n" =
      ⟨"a.nss", "#include \"a\"\n", .entry, none⟩ := by cbv
  refine ⟨?_, (Moment.follow_eq_skipped_iff _).mpr (.inr (by decide)), by decide, by cbv⟩
  rw [Compiler.MeetsDirective, hdirectives, hname, hentry]
  exact .here

end Nwscript
