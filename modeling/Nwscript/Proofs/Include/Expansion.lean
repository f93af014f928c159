import Nwscript.Include.Expand
import Nwscript.Proofs.Include.Closure

/-! # The expansion of a unit

The expansion of what was loaded is the text of the entry file with the text of every other file
spliced in behind the directive that pulled it in. As each file was loaded once, what stands in a file
is in the expansion once, in its order. -/

open List hiding getElem?_take

namespace Nwscript

variable {id : FileId} {file : SourceFile}

open LoadState Load

/-! ## Splicing -/

def lexError? : Except LexError Token → Option LexError
  | .error e => some e
  | .ok _ => none

def keepErrors (results : List (Except LexError Token)) : List LexError :=
  results.filterMap lexError?

def Expansion.ofResults (results : List (Except LexError Token)) : Expansion :=
  ⟨keepTokens results, keepErrors results⟩

/-- What stands in a file, with the files that its directives pulled in spliced in: a file stands
behind its directive, and only the entry file keeps its end. -/
inductive Splices (files : SourceFiles) : Bool → List (Except LexError Token) → List Inclusion →
    List (Except LexError Token) → Prop where
  | done {isEntry} : Splices files isEntry [] [] []
  | error {isEntry e rs out is} : Splices files isEntry rs is out →
      Splices files isEntry (.error e :: rs) is (.error e :: out)
  | fileEnd {isEntry t rs out is} : t.kind = .eof → Splices files isEntry rs is out →
      Splices files isEntry (.ok t :: rs) is (if isEntry then .ok t :: out else out)
  | plain {isEntry t rs out is} : t.kind ≠ .eof → t.kind ≠ .includeLine →
      Splices files isEntry rs is out → Splices files isEntry (.ok t :: rs) is (.ok t :: out)
  | skipped {isEntry t rs out is} : t.kind = .includeLine → Splices files isEntry rs is out →
      Splices files isEntry (.ok t :: rs) (.skipped :: is) (.ok t :: out)
  | loaded {isEntry t rs inner out children is id file} : t.kind = .includeLine →
      files.get? id = some file → Splices files false (lex file.text id) children inner →
      Splices files isEntry rs is out →
      Splices files isEntry (.ok t :: rs) (.loaded id children :: is) (.ok t :: inner ++ out)

def directiveCount (rs : List (Except LexError Token)) : Nat :=
  (keepTokens rs).countP fun t => t.kind == .includeLine

theorem directiveCount_lex (text : String) (id : FileId) :
    directiveCount (lex text id) = (directives text id).length := by
  rw [directives, length_map, ← countP_eq_length_filter]
  rfl

/-- Inclusions for which every file is there, with one for each of its directives. -/
inductive Planned (files : SourceFiles) : List Inclusion → Prop where
  | done : Planned files []
  | skipped {is} : Planned files is → Planned files (.skipped :: is)
  | loaded {id file children is} :
      files.get? id = some file → children.length = (directives file.text id).length →
      Planned files children → Planned files is → Planned files (.loaded id children :: is)

namespace Load

variable {r : Resolver} {dir : Option Provider} {depth : Nat} {expanding : List String}
  {parent : FileId} {s s' : LoadState} {ds : List (String × Pos)} {is : List Inclusion}

theorem Follows.length_eq (h : Follows r dir depth expanding parent s ds is s') :
    is.length = ds.length := by
  induction h with
  | done => rfl
  | skip _ _ ih => rw [length_cons, length_cons, ih]
  | load _ _ _ _ _ _ ih => rw [length_cons, length_cons, ih]

theorem Follows.planned (h : Follows r dir depth expanding parent s ds is s') {t : LoadState}
    (ht : s'.fileList <+: t.fileList) : Planned t.files is := by
  induction h with
  | done => exact .done
  | skip _ _ ih => exact .skipped (ih ht)
  | @load _ _ parent s s₁ s' name pos _ found _ _ _ _ _ hc hr ihc ihr =>
    have hgrows : s₁.fileList <+: t.fileList := by simpa using hr.grows.trans ht
    have hfile := kept_of_grows (hc.grows.trans hgrows) (getElem?_take s parent name pos found)
    rw [← get?_eq] at hfile
    exact .loaded hfile hc.length_eq (ihc hgrows) (ihr ht)

end Load

/-- The expansion of what a directive pulled in. -/
inductive Expands (files : SourceFiles) : Inclusion → Option Expansion → Prop where
  | skipped : Expands files .skipped none
  | loaded {id file children inner} : files.get? id = some file →
      Splices files false (lex file.text id) children inner →
      Expands files (.loaded id children) (some (.ofResults inner))

section Weave

variable {files : SourceFiles} {isEntry : Bool} {is : List Inclusion}

theorem directiveCount_cons (t : Token) (rs : List (Except LexError Token)) :
    directiveCount (.ok t :: rs) = directiveCount rs + if t.kind = .includeLine then 1 else 0 := by
  simp [directiveCount, keepTokens, countP_cons]

@[simp] theorem ofResults_error (e : LexError) (out : List (Except LexError Token)) :
    Expansion.ofResults (.error e :: out) =
      { Expansion.ofResults out with errors := e :: keepErrors out } := rfl

@[simp] theorem ofResults_ok (t : Token) (out : List (Except LexError Token)) :
    Expansion.ofResults (.ok t :: out) = (Expansion.ofResults out).cons t := rfl

@[simp] theorem ofResults_append (inner out : List (Except LexError Token)) :
    Expansion.ofResults (inner ++ out) = (Expansion.ofResults inner).append (.ofResults out) := by
  simp [Expansion.ofResults, Expansion.append, keepTokens, keepErrors]

theorem weave_splices {children : List (Option Expansion)}
    (hchildren : List.Forall₂ (Expands files) is children) {rs : List (Except LexError Token)}
    (hcount : is.length = directiveCount rs) :
    ∃ out, weave isEntry rs children = .ok (.ofResults out) ∧ Splices files isEntry rs is out := by
  induction rs generalizing is children with
  | nil =>
    obtain rfl := length_eq_zero_iff.mp hcount
    exact ⟨[], rfl, .done⟩
  | cons r rs ih =>
    cases r with
    | error e =>
      obtain ⟨out, hweave, hsplices⟩ := ih hchildren hcount
      refine ⟨.error e :: out, ?_, .error hsplices⟩
      simp only [weave, hweave]
      rfl
    | ok t =>
      rw [directiveCount_cons] at hcount
      by_cases heof : t.kind = .eof
      · rw [heof, if_neg (by simp), Nat.add_zero] at hcount
        obtain ⟨out, hweave, hsplices⟩ := ih hchildren hcount
        refine ⟨_, ?_, .fileEnd heof hsplices⟩
        cases isEntry <;> simp [weave, heof, hweave]
      by_cases hinclude : t.kind = .includeLine
      · rw [if_pos hinclude] at hcount
        cases hchildren with
        | nil => cases hcount
        | cons hfirst hrest =>
          obtain ⟨out, hweave, hsplices⟩ := ih hrest (Nat.succ.inj hcount)
          cases hfirst with
          | skipped =>
            refine ⟨_, ?_, .skipped hinclude hsplices⟩
            simp [weave, hinclude, hweave]
          | loaded hfile hinner =>
            refine ⟨_, ?_, .loaded hinclude hfile hinner hsplices⟩
            simp [weave, hinclude, hweave]
      · rw [if_neg hinclude, Nat.add_zero] at hcount
        obtain ⟨out, hweave, hsplices⟩ := ih hchildren hcount
        refine ⟨_, ?_, .plain heof hinclude hsplices⟩
        simp [weave, heof, hinclude, hweave]

theorem expandFile_splices (isEntry : Bool) {children : List (Option Expansion)}
    (hfile : files.get? id = some file) (hchildren : List.Forall₂ (Expands files) is children)
    (hlength : is.length = (directives file.text id).length) :
    ∃ out, expandFile files isEntry id children = .ok (.ofResults out) ∧
      Splices files isEntry (lex file.text id) is out := by
  rw [← directiveCount_lex] at hlength
  rw [expandFile, hfile]
  exact weave_splices hchildren hlength

theorem Planned.expands (h : Planned files is) : ∃ children, expandInclusions files is = .ok children ∧
      List.Forall₂ (Expands files) is children := by
  induction h with
  | done => exact ⟨[], by rw [expandInclusions], .nil⟩
  | skipped _ ih =>
    obtain ⟨children, hexpand, hchildren⟩ := ih
    refine ⟨none :: children, ?_, .cons .skipped hchildren⟩
    rw [expandInclusions, expandInclusion, hexpand]
    rfl
  | @loaded id _ sub _ hfile hlength _ _ ihc ihr =>
    obtain ⟨inner, hinner, hinners⟩ := ihc
    obtain ⟨children, hexpand, hchildren⟩ := ihr
    obtain ⟨out, hout, hsplices⟩ := expandFile_splices false hfile hinners hlength
    refine ⟨some (.ofResults out) :: children, ?_, .cons (.loaded hfile hsplices) hchildren⟩
    have hfirst : expandInclusion files (.loaded id sub) = .ok (some (.ofResults out)) := by
      rw [expandInclusion, hinner]
      exact congrArg (fun e => e >>= fun a => Except.ok (some a)) hout
    rw [expandInclusions, hfirst, hexpand]
    rfl

end Weave

/-! ## Files in the expansion -/

section Files

variable {files : SourceFiles} {isEntry : Bool} {is : List Inclusion}
  {rs out : List (Except LexError Token)} {f : FileId}

def includedFiles (is : List Inclusion) : List FileId := (inclusionTables is).map Prod.fst

@[simp] theorem includedFiles_nil : includedFiles [] = [] := by
  simp [includedFiles, inclusionTables]

@[simp] theorem includedFiles_skipped (is : List Inclusion) :
    includedFiles (.skipped :: is) = includedFiles is := by
  simp [includedFiles, inclusionTables]

theorem includedFiles_loaded (id : FileId) (children is : List Inclusion) :
    includedFiles (.loaded id children :: is) = id :: includedFiles children ++ includedFiles is := by
  simp [includedFiles, inclusionTables, inclusionTable]

theorem isEnd_ok (t : Token) : Lexer.isEnd (.ok t) = (t.kind == .eof) := rfl

theorem isEnd_error (e : LexError) : Lexer.isEnd (.error e) = false := rfl

def Stands (id : FileId) (r : Except LexError Token) : Bool :=
  (resultPos r).file == id && !Lexer.isEnd r

theorem Splices.file_mem (h : Splices files isEntry rs is out)
    (hrs : ∀ r ∈ rs, (resultPos r).file = f) :
    ∀ r ∈ out, (resultPos r).file ∈ f :: includedFiles is := by
  induction h generalizing f with
  | done => simp
  | error _ ih =>
    rw [forall_mem_cons] at hrs ⊢
    exact ⟨by rw [hrs.1]; exact .head _, ih hrs.2⟩
  | @fileEnd isEntry _ _ _ _ _ _ ih =>
    rw [forall_mem_cons] at hrs
    cases isEntry with
    | false => exact ih hrs.2
    | true =>
      rw [if_pos rfl, forall_mem_cons]
      exact ⟨by rw [hrs.1]; exact .head _, ih hrs.2⟩
  | plain _ _ _ ih =>
    rw [forall_mem_cons] at hrs ⊢
    exact ⟨by rw [hrs.1]; exact .head _, ih hrs.2⟩
  | skipped _ _ ih =>
    rw [forall_mem_cons] at hrs ⊢
    rw [includedFiles_skipped]
    exact ⟨by rw [hrs.1]; exact .head _, ih hrs.2⟩
  | loaded _ _ _ _ ihc ihr =>
    rw [forall_mem_cons] at hrs
    rw [cons_append, forall_mem_cons, forall_mem_append, includedFiles_loaded]
    refine ⟨by rw [hrs.1]; exact .head _, fun r hr => ?_, fun r hr => ?_⟩
    · have := ihc (fun r hr => file_of_mem_lex hr) r hr
      exact .tail _ (mem_append_left _ this)
    · have := ihr hrs.2 r hr
      rw [mem_cons] at this ⊢
      exact this.imp_right (mem_append_right _)

theorem filter_stands_eq_nil {ids : List FileId}
    (h : ∀ r ∈ out, (resultPos r).file ∈ ids) (hid : id ∉ ids) : out.filter (Stands id) = [] := by
  rw [filter_eq_nil_iff]
  intro r hr hstands
  rw [Stands, Bool.and_eq_true, beq_iff_eq] at hstands
  exact hid (hstands.1 ▸ h r hr)

theorem ne_of_nodup {ids : List FileId} (hnodup : (f :: ids).Nodup) (hid : id ∈ ids) :
    f ≠ id := fun he => (nodup_cons.mp hnodup).1 (he ▸ hid)

theorem Splices.filter_self (h : Splices files isEntry rs is out)
    (hrs : ∀ r ∈ rs, (resultPos r).file = f) (hf : f ∉ includedFiles is) :
    out.filter (Stands f) = rs.filter fun r => !Lexer.isEnd r := by
  induction h with
  | done => rfl
  | error _ ih =>
    rw [forall_mem_cons] at hrs
    rw [filter_cons, filter_cons, ih hrs.2 hf]
    simp [Stands, hrs.1, isEnd_error]
  | @fileEnd isEntry _ _ _ _ hend _ ih =>
    rw [forall_mem_cons] at hrs
    cases isEntry <;> simp [Stands, isEnd_ok, hend, ← ih hrs.2 hf]
  | plain hend _ _ ih =>
    rw [forall_mem_cons] at hrs
    rw [filter_cons, filter_cons, ih hrs.2 hf]
    simp [Stands, hrs.1, isEnd_ok, hend]
  | skipped hinclude _ ih =>
    rw [forall_mem_cons] at hrs
    rw [includedFiles_skipped] at hf
    rw [filter_cons, filter_cons, ih hrs.2 hf]
    simp [Stands, hrs.1, isEnd_ok, hinclude]
  | loaded hinclude _ hinner _ _ ihr =>
    rw [forall_mem_cons] at hrs
    rw [includedFiles_loaded, mem_append, not_or] at hf
    have hnone := filter_stands_eq_nil (hinner.file_mem fun r hr => file_of_mem_lex hr) hf.1
    rw [cons_append, filter_cons, filter_cons, filter_append, hnone, nil_append, ihr hrs.2 hf.2]
    simp [Stands, hrs.1, isEnd_ok, hinclude]

/-- What stands in a file that was pulled in is in the expansion once, in order. -/
theorem Splices.filter_included (h : Splices files isEntry rs is out)
    (hrs : ∀ r ∈ rs, (resultPos r).file = f) (hnodup : (f :: includedFiles is).Nodup)
    (hid : id ∈ includedFiles is) : ∃ file, files.get? id = some file ∧
      out.filter (Stands id) = (lex file.text id).filter fun r => !Lexer.isEnd r := by
  induction h generalizing f with
  | done => simp at hid
  | error _ ih =>
    rw [forall_mem_cons] at hrs
    rw [filter_cons_of_neg (by simp [Stands, hrs.1, ne_of_nodup hnodup hid])]
    exact ih hrs.2 hnodup hid
  | @fileEnd isEntry _ _ _ _ hend _ ih =>
    rw [forall_mem_cons] at hrs
    obtain ⟨file, hfile, hfilter⟩ := ih hrs.2 hnodup hid
    refine ⟨file, hfile, ?_⟩
    cases isEntry <;> simp [Stands, isEnd_ok, hend, ← hfilter]
  | plain _ _ _ ih =>
    rw [forall_mem_cons] at hrs
    rw [filter_cons_of_neg (by simp [Stands, hrs.1, ne_of_nodup hnodup hid])]
    exact ih hrs.2 hnodup hid
  | skipped _ _ ih =>
    rw [forall_mem_cons] at hrs
    rw [includedFiles_skipped] at hid hnodup
    rw [filter_cons_of_neg (by simp [Stands, hrs.1, ne_of_nodup hnodup hid])]
    exact ih hrs.2 hnodup hid
  | @loaded _ _ _ inner out children is sub file _ hfile hinner hrest ihc ihr =>
    rw [forall_mem_cons] at hrs
    have hf := ne_of_nodup hnodup hid
    have hlex : ∀ r ∈ lex file.text sub, (resultPos r).file = sub := fun r hr => file_of_mem_lex hr
    rw [includedFiles_loaded] at hid hnodup
    obtain ⟨hout, hfiles⟩ := nodup_cons.mp hnodup
    obtain ⟨hfirst, hlater, hapart⟩ := nodup_append.mp hfiles
    rw [cons_append, filter_cons_of_neg (by simp [Stands, hrs.1, hf]),
      filter_append]
    rcases mem_append.mp hid with hid | hid
    · -- Behind the directive: the rest of the file has nothing of it.
      have hnotMem : id ∉ f :: includedFiles is := by
        rw [mem_cons, not_or]
        exact ⟨hf.symm, fun h' => hapart id hid id h' rfl⟩
      rw [filter_stands_eq_nil (hrest.file_mem hrs.2) hnotMem, append_nil]
      rcases mem_cons.mp hid with rfl | hid
      · exact ⟨file, hfile, hinner.filter_self hlex (nodup_cons.mp hfirst).1⟩
      · exact ihc hlex hfirst hid
    · have hnone := filter_stands_eq_nil (hinner.file_mem hlex) fun h' => hapart id h' id hid rfl
      have hfis : f ∉ includedFiles is := fun h' => hout (mem_append_right _ h')
      rw [hnone, nil_append]
      exact ihr hrs.2 (nodup_cons.mpr ⟨hfis, hlater⟩) hid

/-! ## Ends -/

theorem Splices.isEnd_eq_false (h : Splices files isEntry rs is out) (hentry : isEntry = false) :
    ∀ r ∈ out, Lexer.isEnd r = false := by
  induction h with
  | done => simp
  | error _ ih => exact forall_mem_cons.mpr ⟨rfl, ih hentry⟩
  | fileEnd _ _ ih =>
    subst hentry
    exact ih rfl
  | plain hend _ _ ih => exact forall_mem_cons.mpr ⟨by simp [isEnd_ok, hend], ih hentry⟩
  | skipped hinclude _ ih =>
    exact forall_mem_cons.mpr ⟨by simp [isEnd_ok, hinclude], ih hentry⟩
  | loaded hinclude _ _ _ ihc ihr =>
    rw [cons_append, forall_mem_cons, forall_mem_append]
    exact ⟨by simp [isEnd_ok, hinclude], ihc rfl, ihr hentry⟩

theorem ends_cons {r : Except LexError Token} {body : List (Except LexError Token)} {eof : Token}
    (hrs : r :: rs = body ++ [.ok eof]) (heof : eof.kind = .eof)
    (hbody : ∀ r ∈ body, Lexer.isEnd r = false) (hr : Lexer.isEnd r = false) :
    ∃ rest, rs = rest ++ [.ok eof] ∧ ∀ r ∈ rest, Lexer.isEnd r = false := by
  cases body with
  | nil =>
    obtain ⟨rfl, -⟩ := List.cons.inj hrs
    simp [isEnd_ok, heof] at hr
  | cons b body => exact ⟨body, (List.cons.inj hrs).2, (forall_mem_cons.mp hbody).2⟩

theorem Splices.ends (h : Splices files isEntry rs is out) (hentry : isEntry = true)
    {body : List (Except LexError Token)} {eof : Token} (hrs : rs = body ++ [.ok eof])
    (heof : eof.kind = .eof) (hbody : ∀ r ∈ body, Lexer.isEnd r = false) :
    ∃ inner, out = inner ++ [.ok eof] ∧ ∀ r ∈ inner, Lexer.isEnd r = false := by
  induction h generalizing body with
  | done => simp at hrs
  | error _ ih =>
    obtain ⟨rest, hrest, hbody⟩ := ends_cons hrs heof hbody rfl
    obtain ⟨inner, rfl, hinner⟩ := ih hentry hrest hbody
    exact ⟨_ :: inner, rfl, forall_mem_cons.mpr ⟨rfl, hinner⟩⟩
  | fileEnd hend hrest _ =>
    subst hentry
    cases body with
    | nil =>
      obtain ⟨ht, rfl⟩ := List.cons.inj hrs
      cases ht
      cases hrest with
      | done => exact ⟨[], rfl, by simp⟩
    | cons b body =>
      obtain ⟨rfl, -⟩ := List.cons.inj hrs
      have := hbody _ (.head _)
      simp [isEnd_ok, hend] at this
  | @plain _ t _ _ _ hend _ _ ih =>
    have ht : Lexer.isEnd (.ok t) = false := by simpa [isEnd_ok] using hend
    obtain ⟨rest, hrest, hbody⟩ := ends_cons hrs heof hbody ht
    obtain ⟨inner, rfl, hinner⟩ := ih hentry hrest hbody
    exact ⟨_ :: inner, rfl, forall_mem_cons.mpr ⟨ht, hinner⟩⟩
  | @skipped _ t _ _ _ hinclude _ ih =>
    have ht : Lexer.isEnd (.ok t) = false := by simp [isEnd_ok, hinclude]
    obtain ⟨rest, hrest, hbody⟩ := ends_cons hrs heof hbody ht
    obtain ⟨inner, rfl, hinner⟩ := ih hentry hrest hbody
    exact ⟨_ :: inner, rfl, forall_mem_cons.mpr ⟨ht, hinner⟩⟩
  | @loaded _ t _ child _ _ _ _ _ hinclude _ hchild _ _ ihr =>
    have ht : Lexer.isEnd (.ok t) = false := by simp [isEnd_ok, hinclude]
    obtain ⟨rest, hrest, hbody⟩ := ends_cons hrs heof hbody ht
    obtain ⟨inner, rfl, hinner⟩ := ihr hentry hrest hbody
    refine ⟨.ok t :: (child ++ inner), by simp, ?_⟩
    rw [forall_mem_cons, forall_mem_append]
    exact ⟨ht, hchild.isEnd_eq_false rfl, hinner⟩

end Files

/-! ## The expansion of what was loaded -/

theorem keepTokens_filter (p : Except LexError Token → Bool) (rs : List (Except LexError Token)) :
    keepTokens (rs.filter p) = (keepTokens rs).filter fun t => p (.ok t) := by
  induction rs with
  | nil => rfl
  | cons r rs ih =>
    cases r with
    | error e => by_cases hp : p (.error e) = true <;> simpa [keepTokens, hp] using ih
    | ok t => by_cases hp : p (.ok t) = true <;> simpa [keepTokens, hp] using ih

theorem keepErrors_filter (p : Except LexError Token → Bool) (rs : List (Except LexError Token)) :
    keepErrors (rs.filter p) = (keepErrors rs).filter fun e => p (.error e) := by
  induction rs with
  | nil => rfl
  | cons r rs ih =>
    cases r with
    | error e => by_cases hp : p (.error e) = true <;> simpa [keepErrors, lexError?, hp] using ih
    | ok t =>
      by_cases hp : p (.ok t) = true <;>
        simpa [keepErrors, filterMap_cons_none (show lexError? (.ok t) = none from rfl), hp]
          using ih

theorem mem_keepTokens {t : Token} {rs : List (Except LexError Token)} :
    t ∈ keepTokens rs ↔ .ok t ∈ rs := by
  induction rs with
  | nil => simp [keepTokens]
  | cons r rs ih => cases r <;> simp_all [keepTokens]

theorem mem_keepErrors {e : LexError} {rs : List (Except LexError Token)} :
    e ∈ keepErrors rs ↔ .error e ∈ rs := by
  induction rs with
  | nil => simp [keepErrors]
  | cons r rs ih => cases r <;> simp_all [keepErrors, lexError?]

/-- What the expansion of loaded files is: the splice of them all, in which each file stands once. -/
structure ExpandedOnce (files : SourceFiles) (entry : FileId) (file : SourceFile)
    (tree : List Inclusion) (e : Expansion) : Prop where
  /-- The expansion is the text of the entry file with every other file behind its directive. -/
  textual : ∃ out, Splices files true (lex file.text entry) tree out ∧ e = .ofResults out
  files_nodup : (entry :: includedFiles tree).Nodup
  /-- The tokens of each file but its end, once and in order, and no others. -/
  tokens_once : ∀ id ∈ entry :: includedFiles tree, ∃ f, files.get? id = some f ∧
    e.tokens.filter (fun t => t.pos.file == id && t.kind != .eof) =
      (tokens f.text id).filter fun t => t.kind != .eof
  tokens_file : ∀ t ∈ e.tokens, t.pos.file ∈ entry :: includedFiles tree
  errors_once : ∀ id ∈ entry :: includedFiles tree, ∃ f, files.get? id = some f ∧
    e.errors.filter (fun x => x.pos.file == id) = keepErrors (lex f.text id)
  errors_file : ∀ x ∈ e.errors, x.pos.file ∈ entry :: includedFiles tree
  end_last : ∃ body eof, e.tokens = body ++ [eof] ∧ eof.kind = .eof ∧
    eof ∈ tokens file.text entry ∧ ∀ t ∈ body, t.kind ≠ .eof

theorem Splices.expandedOnce {files : SourceFiles} {entry : FileId}
    {tree : List Inclusion} {out : List (Except LexError Token)}
    (h : Splices files true (lex file.text entry) tree out) (hfile : files.get? entry = some file)
    (hnodup : (entry :: includedFiles tree).Nodup) :
    ExpandedOnce files entry file tree (.ofResults out) := by
  have hlex : ∀ r ∈ lex file.text entry, (resultPos r).file = entry := fun r hr => file_of_mem_lex hr
  have hfiles := h.file_mem hlex
  have hstands (id : FileId) (hid : id ∈ entry :: includedFiles tree) :
      ∃ f, files.get? id = some f ∧
        out.filter (Stands id) = (lex f.text id).filter fun r => !Lexer.isEnd r := by
    rcases mem_cons.mp hid with rfl | hid
    · exact ⟨file, hfile, h.filter_self hlex (nodup_cons.mp hnodup).1⟩
    · exact h.filter_included hlex hnodup hid
  refine ⟨⟨out, h, rfl⟩, hnodup, fun id hid => ?_, fun t ht => ?_, fun id hid => ?_,
    fun e he => ?_, ?_⟩
  · obtain ⟨f, hf, hfilter⟩ := hstands id hid
    have htokens := congrArg keepTokens hfilter
    rw [keepTokens_filter, keepTokens_filter] at htokens
    exact ⟨f, hf, htokens⟩
  · exact hfiles _ (mem_keepTokens.mp ht)
  · obtain ⟨f, hf, hfilter⟩ := hstands id hid
    have herrors := congrArg keepErrors hfilter
    rw [keepErrors_filter, keepErrors_filter] at herrors
    refine ⟨f, hf, ?_⟩
    simpa [Stands, isEnd_error, resultPos, Expansion.ofResults] using herrors
  · exact hfiles _ (mem_keepErrors.mp he)
  · obtain ⟨body, eof, hends, heof, hbody⟩ := lex_ends file.text entry
    obtain ⟨inner, rfl, hinner⟩ := h.ends rfl hends heof hbody
    refine ⟨keepTokens inner, eof, ?_, heof, ?_, fun t ht => ?_⟩
    · simp [Expansion.ofResults, keepTokens]
    · exact mem_keepTokens.mpr (by rw [hends]; simp)
    · have := hinner _ (mem_keepTokens.mp ht)
      simpa [isEnd_ok] using this

theorem Load.Follows.expands {r : Resolver} {dir : Option Provider} {depth : Nat}
    {expanding : List String} {entry : FileId} {s s' : LoadState} {tree : List Inclusion}
    (h : Follows r dir depth expanding entry s (directives file.text entry) tree s')
    (hfile : s'.files.get? entry = some file) :
    ∃ out, expand s'.files entry tree = .ok (.ofResults out) ∧
      Splices s'.files true (lex file.text entry) tree out := by
  obtain ⟨children, hexpand, hchildren⟩ := (h.planned (prefix_refl _)).expands
  obtain ⟨out, hout, hsplices⟩ := expandFile_splices true hfile hchildren h.length_eq
  refine ⟨out, ?_, hsplices⟩
  rw [expand, hexpand]
  exact hout

/-- Expanding what was loaded succeeds, and every file that was loaded is expanded once. -/
theorem expand_loadIncludes (resolver : Resolver) (unitDir : Option Provider) (files : SourceFiles)
    (entry : FileId) (tree : List Inclusion) (s : LoadState)
    (h : loadIncludes resolver unitDir files entry = .ok tree s) :
    ∃ file e, s.files.get? entry = some file ∧ expand s.files entry tree = .ok e ∧
      includedFiles tree = List.range' files.size (s.files.size - files.size) ∧
      ExpandedOnce s.files entry file tree e := by
  rw [loadIncludes] at h
  cases hentry : files.get? entry with
  | none =>
    rw [hentry] at h
    cases h
  | some file =>
    rw [hentry] at h
    have hfollows := describes_file resolver unitDir resolver.maxDepth _ _ _ _ _ _ h
    have hkeys : includedFiles tree = List.range' files.size (s.files.size - files.size) :=
      hfollows.keys
    have hlt : entry < files.size := SourceFiles.get?_lt hentry
    have hfile : s.files.get? entry = some file := by
      rw [get?_eq]
      exact kept_of_grows hfollows.grows (by rw [← get?_eq, hentry])
    have hnodup : (entry :: includedFiles tree).Nodup := by
      rw [hkeys, nodup_cons, mem_range'_1]
      exact ⟨fun hmem => absurd hlt (Nat.not_lt.mpr hmem.1), nodup_range'⟩
    obtain ⟨out, hout, hsplices⟩ := hfollows.expands hfile
    exact ⟨file, .ofResults out, hfile, hout, hkeys, hsplices.expandedOnce hfile hnodup⟩

theorem expand_loadIncludes_cycle : loadIncludes Sample.cycleResolver none ⟨#[Sample.cycleEntry]⟩ 0 =
        .ok [.loaded 1 [.loaded 2 [.skipped], .skipped], .skipped] Sample.cycleLoaded ∧
      ∃ file e, Sample.cycleLoaded.files.get? 0 = some file ∧
        expand Sample.cycleLoaded.files 0 [.loaded 1 [.loaded 2 [.skipped], .skipped], .skipped] =
          .ok e ∧ includedFiles [.loaded 1 [.loaded 2 [.skipped], .skipped], .skipped] = [1, 2] ∧
        ExpandedOnce Sample.cycleLoaded.files 0 file
          [.loaded 1 [.loaded 2 [.skipped], .skipped], .skipped] e := by
  have h : loadIncludes Sample.cycleResolver none ⟨#[Sample.cycleEntry]⟩ 0 =
      .ok [.loaded 1 [.loaded 2 [.skipped], .skipped], .skipped] Sample.cycleLoaded := by cbv
  exact ⟨h, expand_loadIncludes _ _ _ _ _ _ h⟩

end Nwscript
