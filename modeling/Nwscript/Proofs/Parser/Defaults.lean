import Nwscript.Proofs.Parser.Walk

/-! # Defaults of parameters

In a program without errors the defaults of every parameter list stand at its end: a parameter that
lacks one behind another that has one is reported, and reports stay. -/

open List

namespace Nwscript
namespace Parser

open ParserState (Grows)

def DefaultsTrail (ps : List Param) : Prop := missingDefaults false ps = []

def ItemTrails : Item → Prop
  | .prototype decl | .function decl _ => DefaultsTrail decl.params
  | _ => True

theorem reads_forM_report {α : Type} (f : α → SyntaxError) (xs : List α) (s : ParserState) :
    (xs.forM fun x => report (f x)).Reads s fun _ s' => s'.errors = [] → xs = [] := by
  induction xs generalizing s with
  | nil => exact Reads.pure fun _ => rfl
  | cons x xs ih =>
    show (report (f x) >>= fun _ => xs.forM fun x => report (f x)).Reads s _
    refine Reads.bind (Q := fun _ s' => s'.errors ≠ []) ?_ fun _ s' _ h => ?_
    · exact ⟨⟨Nat.le_refl _, suffix_cons _ _⟩, cons_ne_nil _ _⟩
    · exact (ih s').weaken fun _ s'' hgrow _ he => absurd (hgrow.no_errors he) h

theorem reads_function (pos : Pos) (ret : TypeSpec) (name : String) (n : Nat) (s : ParserState) :
    (function pos ret name n).Reads s fun item s' => s'.errors = [] → ItemTrails item := by
  have hparams : (params n).Reads s fun ps s' => s'.errors = [] → DefaultsTrail ps := by
    refine ((looks_symbol _ []).grows s).bind fun _ s1 _ _ => ?_
    refine ((looks_skipVoid []).grows s1).bind fun _ s2 _ _ => ?_
    refine ((makes_paramsToEnd n []).grows s2).bind fun ps s3 _ _ => ?_
    exact (reads_forM_report _ _ s3).bind fun _ s4 _ h => Reads.pure h
  refine hparams.bind fun ps s1 _ hps => ?_
  refine ((looks_acceptSymbol _ []).grows s1).bind fun isPrototype s2 h2 _ => ?_
  split
  · refine (reads_modify ⟨Nat.le_refl _, suffix_refl _⟩).bind fun _ s3 h3 _ => ?_
    exact Reads.pure fun he => hps (h2.no_errors (h3.no_errors he))
  · refine (reads_modify ⟨Nat.le_refl _, suffix_refl _⟩).bind fun _ s3 h3 _ => ?_
    refine (((makes_stmts n).block []).grows s3).bind fun body s4 hgrow _ => Reads.pure fun he => ?_
    exact hps (h2.no_errors (h3.no_errors (hgrow.no_errors he)))

theorem reads_functionOrVariable (pos : Pos) (n : Nat) (s : ParserState) :
    (functionOrVariable pos n).Reads s fun item s' => s'.errors = [] → ItemTrails item := by
  refine ((looks_typeSpec []).grows s).bind fun type s1 _ _ => ?_
  refine ((looks_ident []).grows s1).bind fun first s2 _ _ => ?_
  refine ((looks_peekKind []).grows s2).bind fun kind s3 _ _ => ?_
  split
  · exact reads_function pos type first.1 n s3
  · refine ((makes_varDecl _ _ _ _ n []).grows s3).bind fun decl s4 _ _ => ?_
    exact Reads.pure fun _ => trivial

theorem reads_item (n : Nat) (s : ParserState) :
    (item n).Reads s fun item s' => s'.errors = [] → ∀ i ∈ item, ItemTrails i := by
  have some_item : ∀ {p : Parser Item} {s : ParserState},
      p.Reads s (fun item s' => s'.errors = [] → ItemTrails item) →
      (do return some (← p)).Reads s fun item s' => s'.errors = [] → ∀ i ∈ item, ItemTrails i := by
    intro p s hp
    refine hp.bind fun item s' _ h => Reads.pure fun he i hi => ?_
    obtain rfl : item = i := by simpa using hi
    exact h he
  refine ((looks_peek []).grows s).bind fun token s1 _ _ => ?_
  split
  · refine ((looks_next []).grows s1).bind fun _ s2 _ _ => Reads.pure fun _ i hi => ?_
    cases hi
    trivial
  · refine ((looks_next []).grows s1).bind fun _ s2 _ _ => some_item ?_
    unfold defineLine
    generalize splitDefinition token.text.toList = d
    dsimp only
    split
    · exact (reads_modify ⟨Nat.le_refl _, suffix_refl _⟩).bind fun _ _ _ _ => Reads.pure fun _ => trivial
    · exact Reads.pure fun _ => trivial
  · refine ((looks_next []).grows s1).bind fun _ s2 _ _ => Reads.pure fun _ i hi => ?_
    cases hi
  · refine ((looks_peekNth 2 []).grows s1).bind fun following s2 _ _ => ?_
    split
    · refine ((looks_structDecl n []).grows s2).bind fun _ _ _ _ => Reads.pure fun _ i hi => ?_
      cases hi
      trivial
    · exact some_item (reads_functionOrVariable _ n s2)
  · refine ((looks_next []).grows s1).bind fun _ s2 _ _ => some_item ?_
    refine ((looks_typeSpec []).grows s2).bind fun type s3 _ _ => ?_
    refine ((looks_ident []).grows s3).bind fun first s4 _ _ => ?_
    refine ((makes_varDecl _ _ _ _ n []).grows s4).bind fun decl s5 _ _ => ?_
    exact Reads.pure fun _ => trivial
  · exact some_item (reads_functionOrVariable _ n s1)

theorem reads_recovering {α : Type} (topLevel : Bool) {p : Parser α} {s : ParserState}
    {Q : α → Prop} (hp : p.Reads s fun a s' => s'.errors = [] → Q a) :
    (recovering topLevel p).Reads s fun a s' => s'.errors = [] → ∀ x ∈ a, Q x := by
  unfold Reads at hp ⊢
  simp only [recovering, tryCatch, tryCatchThe, MonadExceptOf.tryCatch, EStateM.tryCatch,
    Functor.map, EStateM.map]
  cases hps : p s with
  | ok a s' =>
    rw [hps] at hp
    refine ⟨hp.1, fun he x hx => ?_⟩
    cases hx
    exact hp.2 he
  | error e s' =>
    rw [hps] at hp
    exact ⟨⟨hp.nextId, hp.errors.trans (suffix_cons e _)⟩, fun _ x hx => by cases hx⟩

theorem reads_items (n : Nat) (s : ParserState) :
    (items n).Reads s fun p s' => s'.errors = [] → ∀ i ∈ p, ItemTrails i := by
  induction n generalizing s with
  | zero => exact Grows.refl s
  | succ n ih =>
    refine ((looks_peekKind []).grows s).bind fun kind s1 _ _ => ?_
    split
    · exact Reads.pure fun _ i hi => by cases hi
    · refine (reads_recovering true (reads_item n s1)).bind fun first s2 _ h2 => ?_
      refine (ih s2).bind fun rest s3 hgrow h3 => Reads.pure fun he i hi => ?_
      rcases mem_append.mp hi with hi | hi
      · obtain ⟨item, rfl, hitem⟩ : ∃ item, first = some item ∧ item = some i := by
          simpa [Option.join_eq_some_iff] using hi
        exact h2 (hgrow.no_errors he) item rfl i hitem
      · exact h3 he i hi

end Parser

theorem parse_defaultsTrail {engineTypes : List String} {tokens : List Token}
    (h : (parse engineTypes tokens).errors = []) :
    ∀ item ∈ (parse engineTypes tokens).program, Parser.ItemTrails item := by
  have hr := Parser.reads_items (parseSteps tokens) { stream := .ofTokens tokens, engineTypes }
  unfold parse at h ⊢
  unfold Parser.Reads at hr
  dsimp only at h ⊢
  cases hp : Parser.items (parseSteps tokens) { stream := .ofTokens tokens, engineTypes } with
  | ok program s =>
    rw [hp] at h hr
    exact hr.2 (reverse_eq_nil_iff.mp h)
  | error e s =>
    intro item hi
    cases hi

end Nwscript
