import Nwscript.Proofs.Include.Chains

/-! # The closure of includes

Loading a unit gives every file that is included, directly or through others, exactly once. The plan
of what each directive pulled in is a tree whose root is the entry file; its files are numbered in the
order of the tree, so a file has a greater number than the one that pulled it in. -/

open List hiding getElem?_take

namespace Nwscript

open LoadState Load

/-! ## Plans -/

theorem Inclusion.listInduction {P : List Inclusion → Prop} (is : List Inclusion) (nil : P [])
    (skipped : ∀ rest, P rest → P (.skipped :: rest))
    (loaded : ∀ file children rest, P children → P rest → P (.loaded file children :: rest)) :
    P is := by
  refine @Inclusion.rec_1 (fun i => ∀ rest, P rest → P (i :: rest)) P skipped ?_ nil ?_ is
  · intro file children hchildren rest hrest
    exact loaded file children rest hchildren hrest
  · intro i is hi his
    exact hi is his

/-- The files that some directive of a plan pulled in, as often as directives did. -/
def planTargets (plan : List (FileId × List (Option FileId))) : List FileId :=
  plan.flatMap fun row => row.2.reduceOption

theorem planTargets_perm (file : FileId) (children : List Inclusion) :
    (planTargets (inclusionTable file children)).Perm ((inclusionTables children).map Prod.fst) := by
  induction children using Inclusion.listInduction generalizing file with
  | nil => simp [inclusionTable, inclusionTables, planTargets]
  | skipped rest ih =>
    have h := ih file
    simp only [inclusionTable, inclusionTables, planTargets, map_cons, Inclusion.file?,
      flatMap_cons] at h ⊢
    simpa using h
  | loaded id children rest hchildren hrest =>
    have hc := hchildren id
    have hr := hrest file
    simp only [inclusionTable, inclusionTables, planTargets, map_cons, Inclusion.file?,
      flatMap_cons, reduceOption_cons_of_some, flatMap_append, map_append] at hc hr ⊢
    refine perm_iff_count.mpr fun a => ?_
    have hca := hc.count_eq a
    have hra := hr.count_eq a
    simp only [count_append, count_cons, cons_append] at hca hra ⊢
    omega

/-! ## Numbers of files -/

namespace LoadState

def includedNames (s : LoadState) : List String := s.fileList.tail.map SourceFile.name

theorem includedNames_take (s : LoadState) (parent : FileId) (name : String) (pos : Pos)
    (found : Found) (h : s.fileList ≠ []) :
    (s.take parent name pos found).includedNames = s.includedNames ++ [name] := by
  rw [includedNames, fileList_take, tail_append_of_ne_nil h, map_append, includedNames]
  rfl

theorem includedNames_mono {s s' : LoadState} (h : s.fileList <+: s'.fileList) {n : String}
    (hn : n ∈ s.includedNames) : n ∈ s'.includedNames := by
  obtain ⟨rest, hrest⟩ := h
  cases hs : s.fileList with
  | nil => simp [includedNames, hs] at hn
  | cons f fs =>
    rw [includedNames, hs] at hn
    rw [includedNames, ← hrest, hs, cons_append, tail_cons, map_append]
    exact mem_append_left _ hn

end LoadState

namespace Load

variable {r : Resolver} {dir : Option Provider} {depth : Nat} {expanding : List String}
  {parent : FileId} {s s' : LoadState} {ds : List (String × Pos)} {is : List Inclusion}

theorem Follows.grows (h : Follows r dir depth expanding parent s ds is s') :
    s.fileList <+: s'.fileList := by
  induction h with
  | done => exact prefix_refl _
  | skip _ _ ih => exact ih
  | load _ _ _ _ _ ihChildren ihRest =>
    rw [fileList_take] at ihChildren
    rw [fileList_close] at ihRest
    exact ((prefix_append _ _).trans ihChildren).trans ihRest

theorem Follows.size_le (h : Follows r dir depth expanding parent s ds is s') :
    s.files.size ≤ s'.files.size := by
  rw [← length_fileList, ← length_fileList]
  exact h.grows.length_le

theorem range'_cut {a b c : Nat} (h₁ : a ≤ b) (h₂ : b ≤ c) :
    List.range' a (c - a) = List.range' a (b - a) ++ List.range' b (c - b) := by
  obtain ⟨m, rfl⟩ := Nat.exists_eq_add_of_le h₁
  obtain ⟨n, rfl⟩ := Nat.exists_eq_add_of_le h₂
  rw [Nat.add_assoc, Nat.add_sub_cancel_left, Nat.add_sub_cancel_left, ← Nat.add_assoc,
    Nat.add_sub_cancel_left, range'_append_1]

theorem Follows.keys (h : Follows r dir depth expanding parent s ds is s') :
    (inclusionTables is).map Prod.fst = List.range' s.files.size (s'.files.size - s.files.size) := by
  induction h with
  | done => simp [inclusionTables]
  | skip _ _ ih => simpa [inclusionTables] using ih
  | @load _ _ _ s s₁ s' name _ _ found children is _ _ _ hc hr ihc ihr =>
    have h₁ := hc.size_le
    have h₂ := hr.size_le
    rw [size_take] at h₁ ihc
    rw [files_close] at h₂ ihr
    -- The file itself, then what it includes, then what the later directives include.
    have hfile : List.range' s.files.size (s₁.files.size - s.files.size) =
        s.files.size :: List.range' (s.files.size + 1) (s₁.files.size - (s.files.size + 1)) := by
      rw [← range'_succ]
      congr 1
      omega
    rw [inclusionTables, inclusionTable, map_append, map_cons, ihc, ihr,
      range'_cut (Nat.le_of_succ_le h₁) h₂, hfile]

def PlanFits (s : LoadState) (plan : List (FileId × List (Option FileId))) : Prop :=
  ∀ row ∈ plan, ∀ id, some id ∈ row.2 → ∃ file, s.fileList[id]? = some file ∧
    file.parent = some row.1

theorem PlanFits.mono {plan : List (FileId × List (Option FileId))} (h : PlanFits s plan)
    (hs : s.fileList <+: s'.fileList) : PlanFits s' plan := by
  intro row hrow id hid
  obtain ⟨file, hfile, hparent⟩ := h row hrow id hid
  exact ⟨file, kept_of_grows hs hfile, hparent⟩

theorem Follows.planFits (h : Follows r dir depth expanding parent s ds is s') :
    PlanFits s' (inclusionTable parent is) := by
  induction h with
  | done => simp [PlanFits, inclusionTable, inclusionTables]
  | skip _ _ ih =>
    simpa [PlanFits, inclusionTable, inclusionTables, Inclusion.file?] using ih
  | @load _ _ parent s s₁ s' name pos _ found children is _ _ _ hc hr ihc ihr =>
    have hgrows : s₁.fileList <+: s'.fileList := by simpa using hr.grows
    have htaken : (s.take parent name pos found).fileList <+: s'.fileList := hc.grows.trans hgrows
    have hc' := ihc.mono hgrows
    intro row hrow id hid
    rw [inclusionTable, inclusionTables, mem_cons, mem_append] at hrow
    rcases hrow with rfl | hrow | hrow
    · rw [map_cons, mem_cons] at hid
      rcases hid with hid | hid
      · obtain rfl : id = s.files.size := Option.some.inj hid
        exact ⟨_, kept_of_grows htaken (getElem?_take ..), rfl⟩
      · exact ihr (parent, is.map Inclusion.file?) (by simp [inclusionTable]) id hid
    · exact hc' row hrow id hid
    · exact ihr row (by simp [inclusionTable, hrow]) id hid

/-! ## Names -/

/-- What keeps a file from being loaded twice: a name that was included is behind one of the two
guards, and only such names and that of the entry file are. -/
structure Guarded (entry : String) (expanding : List String) (s : LoadState) : Prop where
  loaded : s.fileList ≠ []
  nodup : s.includedNames.Nodup
  entry_notMem : entry ∉ s.includedNames
  entry_mem : entry ∈ expanding
  guarded : ∀ n ∈ s.includedNames, n ∈ s.expanded ∨ n ∈ expanding
  expanded : ∀ n ∈ s.expanded, n ∈ s.includedNames
  expanding : ∀ n ∈ expanding, n = entry ∨ n ∈ s.includedNames

namespace Guarded

variable {entry name : String}

theorem take (h : Guarded entry expanding s) (hexpanded : name ∉ s.expanded)
    (hexpanding : name ∉ expanding) (parent : FileId) (pos : Pos) (found : Found) :
    Guarded entry (name :: expanding) (s.take parent name pos found) := by
  have hnames := includedNames_take s parent name pos found h.loaded
  have hnew : name ∉ s.includedNames := by
    intro hmem
    rcases h.guarded name hmem with h' | h'
    · exact hexpanded h'
    · exact hexpanding h'
  have hentry : entry ≠ name := fun he => hexpanding (he ▸ h.entry_mem)
  refine ⟨by simp, ?_, ?_, .tail _ h.entry_mem, ?_, ?_, ?_⟩
  · rw [hnames, ← concat_eq_append]
    exact List.Nodup.concat hnew h.nodup
  · rw [hnames, mem_append, mem_singleton, not_or]
    exact ⟨h.entry_notMem, hentry⟩
  · intro n hn
    rw [hnames, mem_append, mem_singleton] at hn
    rcases hn with hn | rfl
    · exact (h.guarded n hn).imp_right (mem_cons_of_mem _)
    · exact .inr (.head _)
  · intro n hn
    rw [hnames]
    exact mem_append_left _ (h.expanded n hn)
  · intro n hn
    rw [hnames, mem_append, mem_singleton]
    rcases mem_cons.mp hn with rfl | hn
    · exact .inr (.inr rfl)
    · exact (h.expanding n hn).imp_right .inl

theorem close (h : Guarded entry (name :: expanding) s) (hexpanding : name ∉ expanding)
    (hentry : entry ∈ expanding) : Guarded entry expanding (s.close name) := by
  refine ⟨h.loaded, h.nodup, h.entry_notMem, hentry, ?_, ?_, ?_⟩
  · intro n hn
    rcases h.guarded n hn with h' | h'
    · exact .inl (.tail _ h')
    · rcases mem_cons.mp h' with rfl | h'
      · exact .inl (.head _)
      · exact .inr h'
  · intro n hn
    rcases mem_cons.mp hn with rfl | hn
    · rcases h.expanding n (.head _) with rfl | hmem
      · exact absurd hentry hexpanding
      · exact hmem
    · exact h.expanded n hn
  · intro n hn
    exact h.expanding n (.tail _ hn)

theorem known (h : Guarded entry expanding s) (hname : name ∈ s.expanded ∨ name ∈ expanding) :
    name = entry ∨ name ∈ s.includedNames := by
  rcases hname with hname | hname
  · exact .inr (h.expanded name hname)
  · exact h.expanding name hname

end Guarded

theorem Follows.guarded (h : Follows r dir depth expanding parent s ds is s') {entry : String}
    (hs : Guarded entry expanding s) : Guarded entry expanding s' := by
  induction h with
  | done => exact hs
  | skip _ _ ih => exact ih hs
  | load hexpanded hexpanding _ _ _ ihc ihr =>
    exact ihr ((ihc (hs.take hexpanded hexpanding _ _ _)).close hexpanding hs.entry_mem)

/-- Every directive that was followed, and every directive of a file that was loaded on the way, names
the entry file or a file that is there. -/
theorem Follows.covers (h : Follows r dir depth expanding parent s ds is s') {entry : String}
    (hs : Guarded entry expanding s) : (∀ d ∈ ds, d.1 = entry ∨ d.1 ∈ s'.includedNames) ∧
      ∀ id file, s.files.size ≤ id → s'.fileList[id]? = some file →
        ∀ d ∈ directives file.text id, d.1 = entry ∨ d.1 ∈ s'.includedNames := by
  induction h with
  | done =>
    refine ⟨by simp, fun id file hid hfile => ?_⟩
    have := (List.getElem?_eq_some_iff.mp hfile).1
    rw [length_fileList] at this
    omega
  | skip hname hrest ih =>
    obtain ⟨hds, hfiles⟩ := ih hs
    refine ⟨fun d hd => ?_, hfiles⟩
    rcases mem_cons.mp hd with rfl | hd
    · exact (hs.known hname).imp_right (includedNames_mono hrest.grows)
    · exact hds d hd
  | @load _ expanding parent s s₁ s' name pos _ found _ _ hexpanded hexpanding _ hc hr ihc ihr =>
    have htake := hs.take hexpanded hexpanding parent pos found
    have hclose := (hc.guarded htake).close hexpanding hs.entry_mem
    obtain ⟨hds₁, hfiles₁⟩ := ihc htake
    obtain ⟨hds₂, hfiles₂⟩ := ihr hclose
    have hgrows : s₁.fileList <+: s'.fileList := by simpa using hr.grows
    have hmono {n : String} (hn : n = entry ∨ n ∈ s₁.includedNames) :
        n = entry ∨ n ∈ s'.includedNames := hn.imp_right (includedNames_mono hgrows)
    constructor
    · intro d hd
      rcases mem_cons.mp hd with rfl | hd
      · exact hmono ((hc.guarded htake).expanding name (.head _))
      · exact hds₂ d hd
    · intro id file hid hfile
      rcases Nat.lt_or_ge id s₁.files.size with hlt | hge
      · have hfile₁ : s₁.fileList[id]? = some file := by
          rw [← hfile, getElem?_of_grows hgrows hlt]
        rcases Nat.eq_or_lt_of_le hid with rfl | hid
        · -- The file that was taken: its directives were followed.
          have htaken := kept_of_grows hc.grows (getElem?_take s parent name pos found)
          cases htaken.symm.trans hfile₁
          exact fun d hd => hmono (hds₁ d hd)
        · exact fun d hd => hmono (hfiles₁ id file (by rw [size_take]; exact hid) hfile₁ d hd)
      · exact hfiles₂ id file hge hfile

/-! ## Nesting -/

theorem Follows.paths (h : Follows r dir depth expanding parent s ds is s') {names : List String}
    (limit : Nat) (hp : s.files.Path 0 parent names) (hlimit : names.length + depth ≤ limit)
    (id : FileId) (hge : s.files.size ≤ id) (hlt : id < s'.files.size) :
    ∃ names', s'.files.Path 0 id names' ∧ names'.length ≤ limit := by
  induction h generalizing names id with
  | done => exact absurd hlt (Nat.not_lt.mpr hge)
  | skip _ _ ih => exact ih hp hlimit id hge hlt
  | @load depth _ parent s s₁ s' name pos _ found _ _ _ _ _ hc hr ihc ihr =>
    have hgrows : s₁.fileList <+: s'.fileList := by simpa using hr.grows
    have htake : (s.take parent name pos found).files.Path 0 parent names :=
      path_of_grows (by simp) hp
    have hfile : (s.take parent name pos found).files.Path 0 s.files.size (names ++ [name]) :=
      .child (by rw [get?_eq, getElem?_take]) rfl htake
    have hlength : (names ++ [name]).length + depth ≤ limit := by
      rw [length_append, length_singleton]
      omega
    rcases Nat.lt_or_ge id s₁.files.size with hlt₁ | hge₁
    · rcases Nat.eq_or_lt_of_le hge with rfl | hgt
      · exact ⟨_, path_of_grows (hc.grows.trans hgrows) hfile, by omega⟩
      · obtain ⟨names', hp', hle⟩ := ihc hfile hlength id (by rw [size_take]; exact hgt) hlt₁
        exact ⟨names', path_of_grows hgrows hp', hle⟩
    · have hp₁ : (s₁.close name).files.Path 0 parent names :=
        path_of_grows hc.grows htake
      exact ihr hp₁ hlimit id hge₁ hlt

end Load

/-! ## The closure -/

/-- What loading gives: each file once, as a tree whose root is the entry file. -/
structure LoadedOnce (maxDepth : Nat) (entry : SourceFile) (tree : List Inclusion) (s : LoadState) :
    Prop where
  /-- The entry file comes first, and every other file was pulled in by an earlier one. -/
  rooted : s.files.Rooted entry
  names_nodup : s.includedNames.Nodup
  entry_notMem : normalizeName entry.name ∉ s.includedNames
  /-- The plan has a row for each file, and its directives pulled in each file but the first once. -/
  plan_files : (inclusionTable 0 tree).map Prod.fst = List.range s.files.size
  plan_targets : (planTargets (inclusionTable 0 tree)).Perm (List.range' 1 (s.files.size - 1))
  /-- A directive of a file pulled in files whose parent it is. -/
  plan_parent : ∀ row ∈ inclusionTable 0 tree, ∀ id, some id ∈ row.2 →
    ∃ file, s.files.get? id = some file ∧ file.parent = some row.1
  /-- The chain of a file is the path to it, no longer than the limit on nesting. -/
  path : ∀ id < s.files.size, s.files.Path 0 id (s.files.chain id)
  chain_length : ∀ id < s.files.size, (s.files.chain id).length ≤ maxDepth + 1
  closed : ∀ id file, s.files.get? id = some file → ∀ d ∈ directives file.text id,
    d.1 ≠ normalizeName entry.name → d.1 ∈ s.includedNames
  /-- There is one note on each file from the bundled library, and no other. -/
  noted : s.Noted

/-- A run of loading that succeeds gives the closure of the entry file's includes, each file once. -/
theorem loadIncludes_once (resolver : Resolver) (unitDir : Option Provider) (name text : String)
    (tree : List Inclusion) (s : LoadState)
    (h : loadIncludes resolver unitDir ⟨#[⟨name, text, .entry, none⟩]⟩ 0 = .ok tree s) :
    LoadedOnce resolver.maxDepth ⟨name, text, .entry, none⟩ tree s := by
  set entry : SourceFile := ⟨name, text, .entry, none⟩ with hentry
  set s₀ : LoadState := { files := ⟨#[entry]⟩ } with hs₀
  have hrun : Load.file resolver unitDir resolver.maxDepth [normalizeName name] 0 text s₀ =
      .ok tree s := h
  have hfollows := describes_file resolver unitDir resolver.maxDepth _ _ _ _ _ _ hrun
  have hreaches : Reaches s₀ s := by
    have hsteps := steps_file resolver unitDir resolver.maxDepth [normalizeName name] 0 text s₀
      Nat.zero_lt_one
    rwa [hrun] at hsteps
  have hrooted₀ : s₀.files.Rooted entry :=
    ⟨rfl, rfl, fun id file hfile hid => absurd (SourceFiles.get?_lt hfile) (Nat.not_lt.mpr hid)⟩
  have hguarded₀ : Guarded (normalizeName name) [normalizeName name] s₀ :=
    ⟨by simp [hs₀, fileList], by simp [hs₀, includedNames, fileList],
      by simp [hs₀, includedNames, fileList], by simp, by simp [hs₀, includedNames, fileList],
      by simp [hs₀], by simp⟩
  have hrooted := hreaches.rooted hrooted₀
  have hguarded := hfollows.guarded hguarded₀
  have hsize : 1 ≤ s.files.size := hfollows.size_le
  have hfiles : (inclusionTables tree).map Prod.fst = List.range' 1 (s.files.size - 1) :=
    hfollows.keys
  obtain ⟨hentryDirectives, hdirectives⟩ := hfollows.covers hguarded₀
  refine ⟨hrooted, hguarded.nodup, hguarded.entry_notMem, ?_, ?_, ?_,
    fun id hid => hrooted.path_chain hid, fun id hid => ?_, fun id file hfile d hd hne => ?_,
    hreaches.noted (by simp [Noted, hs₀, hentry, fileList, diagnostics])⟩
  · obtain ⟨n, hn⟩ := Nat.exists_eq_add_of_le' hsize
    rw [inclusionTable, map_cons, hfiles, hn, Nat.add_sub_cancel, range_eq_range', range'_succ]
  · rw [← hfiles]
    exact planTargets_perm 0 tree
  · intro row hrow id hid
    obtain ⟨file, hfile, hparent⟩ := hfollows.planFits row hrow id hid
    exact ⟨file, by rw [get?_eq, hfile], hparent⟩
  · rcases Nat.eq_zero_or_pos id with rfl | hpos
    · rw [hrooted.chain_eq (.root hrooted.entry_first) hid]
      simp
    · obtain ⟨names, hpath, hlength⟩ :=
        hfollows.paths (resolver.maxDepth + 1) (.root hrooted₀.entry_first)
          (by rw [length_singleton, Nat.add_comm]) id hpos hid
      rwa [hrooted.chain_eq hpath hid]
  · rcases Nat.eq_zero_or_pos id with rfl | hpos
    · obtain rfl := Option.some.inj (hfile.symm.trans hrooted.entry_first)
      exact (hentryDirectives d hd).resolve_left hne
    · rw [get?_eq] at hfile
      exact (hdirectives id file hpos hfile d hd).resolve_left hne

namespace Sample

def cycleTexts : List (String × String) :=
  [("a", "#include \"b\"\n#include \"main\""), ("b", "#include \"a\"\n")]

def cycleEntry : SourceFile := ⟨"main", "#include \"a\"\n#include \"b\"\n", .entry, none⟩

def cycleResolver : Resolver := { project := [.ofTexts "memory" cycleTexts], bundled := false }

/-- The state behind loading the entry file: `a` was pulled in by it, and `b` by `a`. -/
def cycleLoaded : LoadState where
  files := ⟨#[cycleEntry, ⟨"a", "#include \"b\"\n#include \"main\"", .provider "memory", some 0⟩,
    ⟨"b", "#include \"a\"\n", .provider "memory", some 1⟩]⟩
  expanded := ["a", "b"]

end Sample

theorem loadIncludes_once_cycle : loadIncludes Sample.cycleResolver none ⟨#[Sample.cycleEntry]⟩ 0 =
        .ok [.loaded 1 [.loaded 2 [.skipped], .skipped], .skipped] Sample.cycleLoaded ∧
      LoadedOnce 64 Sample.cycleEntry [.loaded 1 [.loaded 2 [.skipped], .skipped], .skipped]
        Sample.cycleLoaded := by
  have h : loadIncludes Sample.cycleResolver none ⟨#[Sample.cycleEntry]⟩ 0 =
      .ok [.loaded 1 [.loaded 2 [.skipped], .skipped], .skipped] Sample.cycleLoaded := by cbv
  exact ⟨h, loadIncludes_once _ _ _ _ _ _ h⟩

end Nwscript
