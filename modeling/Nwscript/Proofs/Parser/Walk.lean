import Nwscript.Proofs.Blind.Moved
import Nwscript.Proofs.Parser.Reading

/-! # What a parser makes

One walk over the parsers shows two things of each. Given the same tokens at other places, it does what
it does at theirs, and gives the same tree at those places: the same numbers, the same errors, the same
declarations. And the nodes of its tree have new numbers, pairwise different. There is one rule for each
way to join parsers, and one lemma for each parser. -/

open List

namespace Nwscript

variable {ρ : Relocation}

/-! ## Streams -/

def TokenStream.moved (ρ : Relocation) (s : TokenStream) : TokenStream :=
  { rest := s.rest.map (Token.moved ρ), eof := s.eof.moved ρ }

namespace TokenStream

@[simp] theorem moved_peek (s : TokenStream) : (s.moved ρ).peek = s.peek.moved ρ := by
  unfold peek moved
  cases s.rest <;> rfl

@[simp] theorem moved_peekKind (s : TokenStream) : (s.moved ρ).peekKind = s.peekKind := by
  rw [peekKind, moved_peek, Token.moved_kind, peekKind]

@[simp] theorem moved_peekNth (s : TokenStream) (n : Nat) : (s.moved ρ).peekNth n = (s.peekNth n).moved ρ := by
  unfold peekNth moved
  rw [getElem?_map]
  cases s.rest[n]? <;> rfl

theorem moved_advance (s : TokenStream) : (s.moved ρ).advance = s.advance.moved ρ := by
  simp [advance, moved]

theorem moved_unexpected (s : TokenStream) (expected : String) :
    (s.moved ρ).unexpected expected = (s.unexpected expected).moved ρ.pos := by
  simp [unexpected, SyntaxError.moved]

theorem moved_ofTokens (ts : List Token) : (ofTokens ts).moved ρ = ofTokens (ts.map (Token.moved ρ)) := by
  simp only [ofTokens, moved, getLast?_map, TokenStream.mk.injEq, true_and]
  cases ts.getLast? with
  | none => exact Token.moved_endToken ρ
  | some t => by_cases h : t.kind = .eof <;> simp [h]

end TokenStream

def ParserState.moved (ρ : Relocation) (s : ParserState) : ParserState :=
  { s with
    stream := s.stream.moved ρ
    errors := s.errors.map (SyntaxError.moved ρ.pos)
    prototypes := s.prototypes.map (PrototypeEntry.moved ρ.pos) }

/-! ## Distinct numbers in a range -/

structure Between (m n : Nat) (ids : List Nat) : Prop where
  le : m ≤ n
  nodup : ids.Nodup
  range : ∀ i ∈ ids, m ≤ i ∧ i < n

variable {n : Nat}

namespace Between

variable {m : Nat}

theorem nil (h : m ≤ n) : Between m n [] :=
  ⟨h, nodup_nil, by simp⟩

theorem widen {k : Nat} {ids : List Nat} (h : Between m n ids) (hk : n ≤ k) : Between m k ids := by
  refine ⟨Nat.le_trans h.le hk, h.nodup, fun i hi => ?_⟩
  have := h.range i hi
  omega

theorem perm {xs ys : List Nat} (h : Between m n xs) (hp : xs.Perm ys) : Between m n ys :=
  ⟨h.le, hp.nodup_iff.mp h.nodup, fun i hi => h.range i (hp.mem_iff.mpr hi)⟩

theorem cons_next {ids : List Nat} (h : Between m n ids) : Between m (n + 1) (n :: ids) := by
  refine ⟨Nat.le_succ_of_le h.le, nodup_cons.mpr ⟨fun hn => ?_, h.nodup⟩, ?_⟩
  · have := h.range n hn
    omega
  · intro i hi
    rcases mem_cons.mp hi with rfl | hi
    · exact ⟨h.le, Nat.lt_succ_self _⟩
    · have := h.range i hi
      omega

end Between

namespace Parser

open ParserState (Grows)

/-! ## Two runs of a parser -/

def movedResult {α : Type} (ρ : Relocation) (f : α → α) :
    EStateM.Result SyntaxError ParserState α → EStateM.Result SyntaxError ParserState α
  | .ok a s => .ok (f a) (s.moved ρ)
  | .error e s => .error (e.moved ρ.pos) (s.moved ρ)

/-- `q` does at other places what `p` does at its own, and `p` adds new numbers to those of the trees it
starts with. -/
structure Walks {α : Type} (ρ : Relocation) (f : α → α) (prior : List NodeId) (ids : α → List NodeId)
    (p q : Parser α) : Prop where
  blind : ∀ s, q (s.moved ρ) = movedResult ρ f (p s)
  adds : ∀ s m, Between m s.nextId prior → p.Reads s fun a s' => Between m s'.nextId (ids a)

def Makes {α : Type} (ρ : Relocation) (f : α → α) (made : α → List NodeId) (p q : Parser α) : Prop :=
  ∀ prior, Walks ρ f prior (fun a => made a ++ prior) p q

def Looks {α : Type} (ρ : Relocation) (f : α → α) (p q : Parser α) : Prop :=
  ∀ prior, Walks ρ f prior (fun _ => prior) p q

section Rules

variable {α β : Type} {f : α → α} {g : β → β} {p q : Parser α} {k l : α → Parser β}
  {prior : List NodeId} {ids made : α → List NodeId} {ids' : β → List NodeId}

theorem Walks.bind (hp : Walks ρ f prior ids p q) (hk : ∀ a, Walks ρ g (ids a) ids' (k a) (l (f a))) :
    Walks ρ g prior ids' (p >>= k) (q >>= l) where
  blind s := by
    have h := hp.blind s
    change EStateM.bind q l (s.moved ρ) = movedResult ρ g (EStateM.bind p k s)
    unfold EStateM.bind
    rw [h]
    cases p s with
    | ok a s' => exact (hk a).blind s'
    | error e s' => rfl
  adds s m h := (hp.adds s m h).bind fun a s' _ ha => (hk a).adds s' m ha

theorem Makes.bind (hp : Makes ρ f made p q)
    (hk : ∀ a, Walks ρ g (made a ++ prior) ids' (k a) (l (f a))) :
    Walks ρ g prior ids' (p >>= k) (q >>= l) := (hp prior).bind hk

theorem Looks.bind (hp : Looks ρ f p q) (hk : ∀ a, Walks ρ g prior ids' (k a) (l (f a))) :
    Walks ρ g prior ids' (p >>= k) (q >>= l) := (hp prior).bind hk

theorem Looks.then (hp : Looks ρ id p q) (hk : ∀ a, Walks ρ g prior ids' (k a) (l a)) :
    Walks ρ g prior ids' (p >>= k) (q >>= l) := hp.bind hk

theorem Walks.pure {a b : α} (h : b = f a) (hids : prior.Perm (ids a)) :
    Walks ρ f prior ids (Pure.pure a) (Pure.pure b) :=
  ⟨fun _ => by rw [h]; rfl, fun _ _ hs => Reads.pure (hs.perm hids)⟩

theorem Walks.count {a b : α} (h : b = f a) (hids : ∀ i, prior.count i = (ids a).count i) :
    Walks ρ f prior ids (Pure.pure a) (Pure.pure b) := .pure h (perm_iff_count.mpr hids)

theorem Walks.done {a b : α} (h : b = f a) (hids : prior = ids a) :
    Walks ρ f prior ids (Pure.pure a) (Pure.pure b) := .pure h (.of_eq hids)

theorem Walks.perm {xs : List NodeId} (h : Walks ρ f xs ids p q) (hx : prior.Perm xs) :
    Walks ρ f prior ids p q := ⟨h.blind, fun s m hs => h.adds s m (hs.perm hx)⟩

theorem Walks.ite {c : Prop} {i j : Decidable c} {p' q' : Parser α} (hp : Walks ρ f prior ids p q)
    (hp' : Walks ρ f prior ids p' q') : Walks ρ f prior ids (@ite _ c i p p') (@ite _ c j q q') := by
  by_cases h : c
  · rw [if_pos h, if_pos h]
    exact hp
  · rw [if_neg h, if_neg h]
    exact hp'

theorem Walks.throw {e e' : ParserState → SyntaxError}
    (h : ∀ s, e' (s.moved ρ) = (e s).moved ρ.pos) :
    Walks ρ f prior ids (do throw (e (← get))) (do throw (e' (← get))) where
  blind s := by
    change EStateM.Result.error (e' (s.moved ρ)) (s.moved ρ) = _
    rw [h]
    rfl
  adds s _ _ := Grows.refl s

theorem Looks.of (h : ∀ s, q (s.moved ρ) = movedResult ρ f (p s))
    (hquiet : ∀ s, p.Reads s fun _ s' => s'.nextId = s.nextId) : Looks ρ f p q :=
  fun _ => ⟨h, fun s _ hs => (hquiet s).weaken fun _ _ _ heq => heq ▸ hs⟩

theorem Looks.read {a b : ParserState → α} (h : ∀ s, b (s.moved ρ) = f (a s)) :
    Looks ρ f (do return a (← get)) (do return b (← get)) := by
  refine .of (fun s => ?_) fun s => ⟨Grows.refl s, rfl⟩
  change EStateM.Result.ok (b (s.moved ρ)) (s.moved ρ) = _
  rw [h]
  rfl

theorem Looks.modify {a b : ParserState → ParserState} (h : ∀ s, b (s.moved ρ) = (a s).moved ρ)
    (hid : ∀ s, (a s).nextId = s.nextId) (herrors : ∀ s, s.errors <:+ (a s).errors) :
    Looks ρ id (modify a) (modify b) := by
  refine .of (fun s => ?_) fun s => ⟨⟨Nat.le_of_eq (hid s).symm, herrors s⟩, hid s⟩
  change EStateM.Result.ok () (b (s.moved ρ)) = _
  rw [h]
  rfl

theorem Makes.some (hp : Makes ρ f made p q) : Makes ρ (Option.map f)
    (fun a => a.toList.flatMap made) (Option.some <$> p) (Option.some <$> q) := by
  intro prior
  rw [map_eq_pure_bind, map_eq_pure_bind]
  exact hp.bind fun a => .pure rfl (by simp)

/-- Numbers are not used again and errors are not forgotten, whatever the numbers are. -/
theorem Walks.grows (h : Walks .off f [] ids p q) (s : ParserState) : p.Reads s fun _ _ => True :=
  (h.adds s 0 (.nil (Nat.zero_le _))).weaken fun _ _ _ _ => trivial

end Rules

/-! ## Reading tokens -/

theorem looks_peek : Looks ρ (Token.moved ρ) peek peek := .read fun s => s.stream.moved_peek

theorem looks_peekKind : Looks ρ id peekKind peekKind := .read fun s => s.stream.moved_peekKind

theorem looks_peekNth (n : Nat) : Looks ρ (Token.moved ρ) (peekNth n) (peekNth n) :=
  .read fun s => s.stream.moved_peekNth n

theorem looks_isEngineType (name : String) : Looks ρ id (isEngineType name) (isEngineType name) :=
  .read fun _ => rfl

theorem looks_next : Looks ρ (Token.moved ρ) next next := by
  refine .of (fun s => ?_) fun s => ⟨⟨Nat.le_refl _, suffix_refl _⟩, rfl⟩
  change EStateM.Result.ok (s.moved ρ).stream.peek { s.moved ρ with stream := (s.moved ρ).stream.advance } = _
  rw [show (s.moved ρ).stream = s.stream.moved ρ from rfl, TokenStream.moved_peek, TokenStream.moved_advance]
  rfl

section Faults

variable {α : Type} {f : α → α} {prior : List NodeId} {ids : α → List NodeId}

theorem walks_unexpected (expected : String) :
    Walks ρ f prior ids (unexpected expected) (unexpected expected) :=
  .throw fun s => s.stream.moved_unexpected expected

theorem walks_tooDeep : Walks ρ f prior ids tooDeep tooDeep :=
  .throw fun s => by
    rw [show (s.moved ρ).stream = s.stream.moved ρ from rfl, TokenStream.moved_peek]
    rfl

end Faults

theorem looks_accept (kind : TokenKind) : Looks ρ id (accept kind) (accept kind) := by
  refine .of (fun s => ?_) fun s => ⟨⟨Nat.le_refl _, suffix_refl _⟩, rfl⟩
  change EStateM.Result.ok ((s.moved ρ).stream.accept kind).1
    { s.moved ρ with stream := ((s.moved ρ).stream.accept kind).2 } = movedResult ρ id
      (.ok (s.stream.accept kind).1 { s with stream := (s.stream.accept kind).2 })
  rw [show (s.moved ρ).stream = s.stream.moved ρ from rfl, TokenStream.accept, TokenStream.accept,
    TokenStream.moved_peekKind, TokenStream.moved_advance]
  by_cases h : s.stream.peekKind = kind
  · simp only [h, if_true]
    rfl
  · simp only [h, if_false]
    rfl

theorem looks_acceptSymbol (sym : Symbol) : Looks ρ id (acceptSymbol sym) (acceptSymbol sym) :=
  looks_accept _

theorem consume_apply (kind : TokenKind) (s : ParserState) : consume kind s =
    if s.stream.peekKind = kind then .ok s.stream.peek { s with stream := s.stream.advance }
    else .error (s.stream.unexpected kind.text) s := by
  simp only [consume, TokenStream.consume, bind, EStateM.bind, MonadState.get, getThe, MonadStateOf.get, EStateM.get]
  split_ifs <;> rfl

theorem looks_consume (kind : TokenKind) : Looks ρ (Token.moved ρ) (consume kind) (consume kind) := by
  refine .of (fun s => ?_) fun s => ?_
  · rw [consume_apply, consume_apply, show (s.moved ρ).stream = s.stream.moved ρ from rfl,
      TokenStream.moved_peekKind, TokenStream.moved_peek, TokenStream.moved_advance,
      TokenStream.moved_unexpected]
    split_ifs <;> rfl
  · rw [Reads, consume_apply]
    split_ifs
    · exact ⟨⟨Nat.le_refl _, suffix_refl _⟩, rfl⟩
    · exact Grows.refl s

theorem looks_symbol (sym : Symbol) : Looks ρ (Token.moved ρ) (symbol sym) (symbol sym) := looks_consume _

def movedName (ρ : Relocation) (name : String × Pos) : String × Pos := (name.1, ρ.pos name.2)

theorem looks_ident : Looks ρ (movedName ρ) ident ident :=
  fun _ => (looks_consume .ident).bind fun _ => .done rfl rfl

theorem makes_node (pos : Pos) :
    Makes ρ (Node.moved ρ.pos) (fun n => [n.id]) (node pos) (node (ρ.pos pos)) :=
  fun _ => ⟨fun _ => rfl, fun _ _ hs => ⟨⟨Nat.le_succ _, suffix_refl _⟩, hs.cons_next⟩⟩

theorem looks_report {e e' : SyntaxError} (h : e' = e.moved ρ.pos) : Looks ρ id (report e) (report e') :=
  .modify (fun s => by rw [h]; rfl) (fun _ => rfl) fun _ => suffix_cons _ _

theorem behindStatement_map_moved (topLevel : Bool) (ts : List Token) :
    behindStatement topLevel (ts.map (Token.moved ρ)) = (behindStatement topLevel ts).map (Token.moved ρ) := by
  induction ts with
  | nil => rfl
  | cons t ts ih =>
    simp only [map_cons, behindStatement, Token.moved_kind, ih]
    split_ifs <;> rfl

theorem looks_synchronize (topLevel : Bool) :
    Looks ρ id (synchronize topLevel) (synchronize topLevel) := by
  refine .modify (fun s => ?_) (fun _ => rfl) fun _ => suffix_refl _
  simp [ParserState.moved, TokenStream.moved, behindStatement_map_moved]

theorem makes_recovering {α : Type} {f : α → α} {made : α → List NodeId} (topLevel : Bool)
    {p q : Parser α} (hp : Makes ρ f made p q) : Makes ρ (Option.map f)
      (fun a => a.toList.flatMap made) (recovering topLevel p) (recovering topLevel q) := by
  intro prior
  have hrest (e : SyntaxError) : Walks ρ (Option.map f) prior
      (fun a => a.toList.flatMap made ++ prior) (do report e; synchronize topLevel; return none)
      (do report (e.moved ρ.pos); synchronize topLevel; return none) :=
    (looks_report rfl).then fun _ => (looks_synchronize topLevel).then fun _ => .done rfl rfl
  refine ⟨fun s => ?_, fun s m hs => ?_⟩
  · have h := (hp.some prior).blind s
    change EStateM.tryCatch _ _ (s.moved ρ) = movedResult ρ _ (EStateM.tryCatch _ _ s)
    unfold EStateM.tryCatch
    rw [h]
    cases (Option.some <$> p) s with
    | ok a s' => rfl
    | error e s' => exact (hrest e).blind s'
  · have h := (hp.some prior).adds s m hs
    unfold Reads at h ⊢
    simp only [recovering, tryCatch, tryCatchThe, MonadExceptOf.tryCatch, EStateM.tryCatch]
    cases hps : (Option.some <$> p) s with
    | ok a s' =>
      rw [hps] at h
      exact h
    | error e s' =>
      rw [hps] at h
      exact ⟨⟨h.nextId, h.errors.trans (suffix_cons e _)⟩, hs.widen h.nextId⟩

theorem looks_atType : Looks ρ id atType atType := by
  intro prior
  refine looks_peek.bind fun token => ?_
  simp only [Token.moved_kind, Token.moved_text]
  split
  · exact .done rfl rfl
  · refine (looks_isEngineType _).then fun _ => ?_
    exact (looks_peekNth 1).bind fun _ => .done rfl rfl
  · exact .done rfl rfl

theorem looks_typeSpec : Looks ρ id typeSpec typeSpec := by
  intro prior
  refine looks_peek.bind fun token => ?_
  simp only [Token.moved_kind, Token.moved_text]
  split
  · refine looks_next.bind fun _ => ?_
    exact looks_ident.bind fun _ => .done rfl rfl
  · split
    · exact looks_next.bind fun _ => .done rfl rfl
    · exact walks_unexpected _
  · refine (looks_isEngineType _).then fun _ => ?_
    split
    · exact looks_next.bind fun _ => .done rfl rfl
    · exact walks_unexpected _
  · exact walks_unexpected _

/-! ## Expressions -/

theorem looks_component : Looks ρ id component component := by
  intro prior
  refine (looks_acceptSymbol _).then fun negative => ?_
  refine looks_peek.bind fun token => ?_
  simp only [Token.moved_kind, Token.moved_text]
  split
  · exact looks_next.bind fun _ => .done rfl rfl
  · exact walks_unexpected _

theorem looks_componentFollows (first : Bool) :
    Looks ρ id (componentFollows first) (componentFollows first) := by
  intro prior
  refine looks_peekKind.then fun kind => ?_
  split
  · exact .done rfl rfl
  · cases first
    · exact (looks_symbol _).bind fun _ => .done rfl rfl
    · exact .done rfl rfl

theorem looks_components (n : Nat) (first : Bool) :
    Looks ρ id (components first n) (components first n) := by
  intro prior
  induction n generalizing first with
  | zero =>
    refine (looks_componentFollows first).then fun follows => ?_
    cases follows
    · exact .done rfl rfl
    · exact walks_unexpected _
  | succ n ih =>
    refine (looks_componentFollows first).then fun follows => ?_
    cases follows
    · exact .done rfl rfl
    · refine looks_component.then fun x => ?_
      exact (ih false).bind fun _ => .done rfl rfl

theorem makes_vector : Makes ρ (Expr.moved ρ.pos) Expr.ids vector vector := by
  intro prior
  refine (looks_symbol _).bind fun open_ => ?_
  refine (looks_components 3 true).then fun xs => ?_
  refine (looks_symbol _).bind fun _ => ?_
  exact (makes_node _).bind fun _ => .done rfl rfl

theorem makes_leaf (token : Token) (value : Value) :
    Makes ρ (Expr.moved ρ.pos) Expr.ids (leaf token value) (leaf (token.moved ρ) value) := by
  intro prior
  refine looks_next.bind fun _ => ?_
  exact (makes_node _).bind fun _ => .done rfl rfl

theorem walks_suffixes (n : Nat) (e : Expr) (prior : List NodeId) :
    Walks ρ (Expr.moved ρ.pos) (e.ids ++ prior) (fun e => e.ids ++ prior) (suffixes e n)
      (suffixes (e.moved ρ.pos) n) := by
  induction n generalizing e with
  | zero => exact walks_tooDeep
  | succ n ih =>
    refine looks_peek.bind fun token => ?_
    simp only [Token.moved_kind]
    split
    · refine looks_next.bind fun _ => ?_
      exact (makes_node _).bind fun node => ih (.step node _ _ e)
    · refine .ite ?_ ?_
      · refine looks_next.bind fun _ => ?_
        refine looks_ident.bind fun name => ?_
        exact (makes_node _).bind fun node => ih (.field node e name.1)
      · exact .done rfl rfl

structure MakesExprs (ρ : Relocation) (n : Nat) : Prop where
  expr : Makes ρ (Expr.moved ρ.pos) Expr.ids (expr n) (expr n)
  conditional : Makes ρ (Expr.moved ρ.pos) Expr.ids (conditional n) (conditional n)
  binary : ∀ power, Makes ρ (Expr.moved ρ.pos) Expr.ids (binary power n) (binary power n)
  binaryTail : ∀ power lhs prior, Walks ρ (Expr.moved ρ.pos) (lhs.ids ++ prior)
    (fun e => e.ids ++ prior) (binaryTail power lhs n) (binaryTail power (lhs.moved ρ.pos) n)
  unary : Makes ρ (Expr.moved ρ.pos) Expr.ids (unary n) (unary n)
  primary : Makes ρ (Expr.moved ρ.pos) Expr.ids (primary n) (primary n)
  arguments : Makes ρ (List.map (Expr.moved ρ.pos)) Expr.idsOf (arguments n) (arguments n)
  argumentList : Makes ρ (List.map (Expr.moved ρ.pos)) Expr.idsOf (argumentList n) (argumentList n)

theorem MakesExprs.zero : MakesExprs ρ 0 where
  expr _ := walks_tooDeep
  conditional _ := walks_tooDeep
  binary _ _ := walks_tooDeep
  binaryTail _ _ _ := walks_tooDeep
  unary _ := walks_tooDeep
  primary _ := walks_tooDeep
  arguments _ := walks_tooDeep
  argumentList _ := walks_tooDeep

section Succ

variable {n : Nat} (h : MakesExprs ρ n)
include h

theorem makes_expr_succ : Makes ρ (Expr.moved ρ.pos) Expr.ids (expr (n + 1)) (expr (n + 1)) := by
  intro prior
  rw [expr]
  refine h.conditional.bind fun target => ?_
  refine looks_peekKind.then fun kind => ?_
  split
  · refine looks_next.bind fun token => ?_
    refine h.expr.bind fun value => ?_
    refine (makes_node _).bind fun _ => .count rfl fun i => ?_
    simp only [Expr.ids_assign, count_append, count_cons, count_nil]
    omega
  · exact .done rfl rfl

theorem makes_conditional_succ :
    Makes ρ (Expr.moved ρ.pos) Expr.ids (conditional (n + 1)) (conditional (n + 1)) := by
  intro prior
  rw [conditional]
  refine (h.binary 1).bind fun cond => ?_
  refine looks_peekKind.then fun kind => ?_
  split
  · refine looks_next.bind fun token => ?_
    refine h.expr.bind fun yes => ?_
    refine (looks_symbol _).bind fun _ => ?_
    refine h.conditional.bind fun no => ?_
    refine (makes_node _).bind fun _ => .count rfl fun i => ?_
    simp only [Expr.ids_conditional, count_append, count_cons, count_nil]
    omega
  · exact .done rfl rfl

theorem makes_binary_succ (power : Nat) :
    Makes ρ (Expr.moved ρ.pos) Expr.ids (binary power (n + 1)) (binary power (n + 1)) := by
  intro prior
  rw [binary]
  exact h.unary.bind fun lhs => h.binaryTail power lhs prior

theorem walks_binaryTail_succ (power : Nat) (lhs : Expr) (prior : List NodeId) :
    Walks ρ (Expr.moved ρ.pos) (lhs.ids ++ prior) (fun e => e.ids ++ prior)
      (binaryTail power lhs (n + 1)) (binaryTail power (lhs.moved ρ.pos) (n + 1)) := by
  rw [binaryTail, binaryTail]
  refine looks_peekKind.then fun kind => ?_
  split
  · split
    · exact .done rfl rfl
    · refine looks_next.bind fun token => ?_
      refine (h.binary _).bind fun rhs => ?_
      refine (makes_node _).bind fun node => ?_
      refine (h.binaryTail power (.binary node _ lhs rhs) prior).perm (perm_iff_count.mpr fun i => ?_)
      simp only [Expr.ids_binary, count_append, count_cons, count_nil]
      omega
  · exact .done rfl rfl

theorem makes_unary_succ : Makes ρ (Expr.moved ρ.pos) Expr.ids (unary (n + 1)) (unary (n + 1)) := by
  intro prior
  rw [unary]
  refine looks_peek.bind fun token => ?_
  simp only [Token.moved_kind]
  split
  · refine looks_next.bind fun _ => ?_
    refine h.unary.bind fun operand => ?_
    exact (makes_node _).bind fun _ => .done rfl rfl
  · refine looks_next.bind fun _ => ?_
    refine h.unary.bind fun target => ?_
    exact (makes_node _).bind fun _ => .done rfl rfl
  · exact h.primary.bind fun e => walks_suffixes n e prior

theorem makes_primary_succ : Makes ρ (Expr.moved ρ.pos) Expr.ids (primary (n + 1)) (primary (n + 1)) := by
  intro prior
  rw [primary]
  refine looks_peek.bind fun token => ?_
  simp only [Token.moved_kind, Token.moved_text]
  split
  · split
    · exact makes_leaf token _ _
    · exact walks_unexpected _
  · split
    · exact makes_leaf token _ _
    · exact walks_unexpected _
  · exact makes_leaf token _ _
  · exact makes_leaf token _ _
  · exact makes_leaf token _ _
  · refine (looks_peekNth 1).bind fun ahead => ?_
    refine .ite ?_ ?_
    · refine looks_next.bind fun _ => ?_
      refine (looks_symbol _).bind fun _ => ?_
      refine h.arguments.bind fun args => ?_
      refine (makes_node _).bind fun node => .done ?_ rfl
      rw [Expr.moved, Expr.movedAll_eq_map]
    · refine looks_next.bind fun _ => ?_
      exact (makes_node _).bind fun _ => .done rfl rfl
  · refine looks_next.bind fun _ => ?_
    refine h.expr.bind fun inner => ?_
    exact (looks_symbol _).bind fun _ => .done rfl rfl
  · exact makes_vector _
  · exact walks_unexpected _

theorem makes_arguments_succ :
    Makes ρ (List.map (Expr.moved ρ.pos)) Expr.idsOf (arguments (n + 1)) (arguments (n + 1)) := by
  intro prior
  rw [arguments]
  refine (looks_acceptSymbol _).then fun closed => ?_
  cases closed
  · exact h.argumentList _
  · exact .done rfl rfl

theorem makes_argumentList_succ :
    Makes ρ (List.map (Expr.moved ρ.pos)) Expr.idsOf (argumentList (n + 1)) (argumentList (n + 1)) := by
  intro prior
  rw [argumentList]
  refine h.expr.bind fun arg => ?_
  refine (looks_acceptSymbol _).then fun more => ?_
  cases more
  · exact (looks_symbol _).bind fun _ => .pure rfl (by simp)
  · refine h.argumentList.bind fun _ => .count rfl fun i => ?_
    simp only [Expr.idsOf_cons, count_append]
    omega

end Succ

/-- Every step allows the parsers one more level; the induction is on their number. -/
theorem makes_exprs (n : Nat) : MakesExprs ρ n := by
  induction n with
  | zero => exact .zero
  | succ n ih =>
    exact
      { expr := makes_expr_succ ih
        conditional := makes_conditional_succ ih
        binary := makes_binary_succ ih
        binaryTail := walks_binaryTail_succ ih
        unary := makes_unary_succ ih
        primary := makes_primary_succ ih
        arguments := makes_arguments_succ ih
        argumentList := makes_argumentList_succ ih }

def optionalIds (e : Option Expr) : List NodeId := e.toList.flatMap Expr.ids

theorem makes_optionalExpr (terminator : Symbol) (n : Nat) :
    Makes ρ (Option.map (Expr.moved ρ.pos)) optionalIds (optionalExpr terminator n)
      (optionalExpr terminator n) := by
  intro prior
  refine looks_peekKind.then fun kind => ?_
  split
  · exact .done rfl rfl
  · exact (makes_exprs n).expr.bind fun _ => .pure rfl (by simp [optionalIds])

theorem makes_afterEquals {p q : Parser Expr} (hp : Makes ρ (Expr.moved ρ.pos) Expr.ids p q) :
    Makes ρ (Option.map (Expr.moved ρ.pos)) optionalIds (afterEquals p) (afterEquals q) := by
  intro prior
  refine (looks_acceptSymbol _).then fun found => ?_
  cases found
  · exact .done rfl rfl
  · exact hp.some _

theorem makes_parenExpr (n : Nat) :
    Makes ρ (Expr.moved ρ.pos) Expr.ids (parenExpr n) (parenExpr n) := by
  intro prior
  refine (looks_symbol _).bind fun _ => ?_
  refine (makes_exprs n).expr.bind fun e => ?_
  exact (looks_symbol _).bind fun _ => .done rfl rfl

/-! ## Statements -/

theorem makes_declarators (n : Nat) (name : String) (pos : Pos) :
    Makes ρ (List.map (Declarator.moved ρ.pos)) (List.flatMap Declarator.ids) (declarators name pos n)
      (declarators name (ρ.pos pos) n) := by
  induction n generalizing name pos with
  | zero => exact fun _ => walks_tooDeep
  | succ n ih =>
    intro prior
    refine (makes_afterEquals (makes_exprs n).expr).bind fun init => ?_
    refine (makes_node pos).bind fun node => ?_
    refine (looks_acceptSymbol _).then fun more => ?_
    cases more
    · exact .pure rfl (by simp [Declarator.ids, optionalIds])
    · refine looks_ident.bind fun next => ?_
      refine (ih next.1 next.2).bind fun _ => .count rfl fun i => ?_
      simp only [flatMap_cons, Declarator.ids, optionalIds, count_append, count_cons, count_nil]
      omega

def VarDecl.ids (d : VarDecl) : List NodeId := d.vars.flatMap Declarator.ids

theorem makes_varDecl (pos : Pos) (isConst : Bool) (type : TypeSpec) (first : String × Pos) (n : Nat) :
    Makes ρ (VarDecl.moved ρ.pos) VarDecl.ids (varDecl pos isConst type first n)
      (varDecl (ρ.pos pos) isConst type (movedName ρ first) n) := by
  intro prior
  refine (makes_declarators n first.1 first.2).bind fun vars => ?_
  exact (looks_symbol _).bind fun _ => .done rfl rfl

theorem makes_localDecl (pos : Pos) (n : Nat) :
    Makes ρ (VarDecl.moved ρ.pos) VarDecl.ids (localDecl pos n) (localDecl (ρ.pos pos) n) := by
  intro prior
  refine looks_typeSpec.then fun type => ?_
  exact looks_ident.bind fun first => makes_varDecl pos false type first n prior

theorem makes_caseLabel (pos : Pos) (n : Nat) :
    Makes ρ (Stmt.moved ρ.pos) Stmt.ids (caseLabel pos n) (caseLabel (ρ.pos pos) n) := by
  intro prior
  refine (makes_exprs n).conditional.bind fun label => ?_
  refine (looks_symbol _).bind fun _ => .done rfl ?_
  rw [Stmt.ids]

theorem makes_returnStmt (pos : Pos) (n : Nat) :
    Makes ρ (Stmt.moved ρ.pos) Stmt.ids (returnStmt pos n) (returnStmt (ρ.pos pos) n) := by
  intro prior
  refine (makes_optionalExpr _ n).bind fun value => ?_
  refine (looks_symbol _).bind fun _ => .done rfl ?_
  rw [Stmt.ids, optionalIds]

theorem makes_simpleStmt (pos : Pos) (n : Nat) :
    Makes ρ (Stmt.moved ρ.pos) Stmt.ids (simpleStmt pos n) (simpleStmt (ρ.pos pos) n) := by
  intro prior
  refine looks_atType.then fun declares => ?_
  cases declares
  · refine (makes_exprs n).expr.bind fun e => ?_
    refine (looks_symbol _).bind fun _ => .done rfl ?_
    rw [Stmt.ids]
  · refine (makes_localDecl pos n).bind fun _ => .done rfl ?_
    rw [Stmt.ids, VarDecl.ids]

def movedHead (ρ : Relocation) (head : Option Expr × Option Expr × Option Expr) :
    Option Expr × Option Expr × Option Expr :=
  (head.1.map (Expr.moved ρ.pos), head.2.1.map (Expr.moved ρ.pos), head.2.2.map (Expr.moved ρ.pos))

def headIds (head : Option Expr × Option Expr × Option Expr) : List NodeId :=
  optionalIds head.1 ++ (optionalIds head.2.1 ++ optionalIds head.2.2)

theorem makes_forHead (n : Nat) : Makes ρ (movedHead ρ) headIds (forHead n) (forHead n) := by
  intro prior
  refine (looks_symbol _).bind fun _ => ?_
  refine (makes_optionalExpr _ n).bind fun init => ?_
  refine (looks_symbol _).bind fun _ => ?_
  refine (makes_optionalExpr _ n).bind fun cond => ?_
  refine (looks_symbol _).bind fun _ => ?_
  refine (makes_optionalExpr _ n).bind fun next => ?_
  refine (looks_symbol _).bind fun _ => .count rfl fun i => ?_
  simp only [headIds, count_append]
  omega

structure MakesStmts (ρ : Relocation) (n : Nat) : Prop where
  stmt : Makes ρ (Stmt.moved ρ.pos) Stmt.ids (stmt n) (stmt n)
  block : Makes ρ (List.map (Stmt.moved ρ.pos)) Stmt.idsOf (block n) (block n)
  blockRest : Makes ρ (List.map (Stmt.moved ρ.pos)) Stmt.idsOf (blockRest n) (blockRest n)

theorem makes_stmt_succ {n : Nat} (h : MakesStmts ρ n) :
    Makes ρ (Stmt.moved ρ.pos) Stmt.ids (stmt (n + 1)) (stmt (n + 1)) := by
  intro prior
  rw [stmt]
  refine looks_peek.bind fun token => ?_
  simp only [Token.moved_kind, Token.moved_pos]
  split
  · refine h.block.bind fun body => .done ?_ ?_
    · rw [Stmt.moved, Stmt.movedAll_eq_map]
    · rw [Stmt.ids]
  · exact looks_next.bind fun _ => .done rfl rfl
  · refine looks_next.bind fun _ => ?_
    refine (makes_parenExpr n).bind fun cond => ?_
    refine h.stmt.bind fun yes => ?_
    refine (looks_accept _).then fun found => ?_
    cases found
    · refine .count rfl fun i => ?_
      simp only [Stmt.ids, count_append]
      omega
    · refine h.stmt.bind fun _ => .count rfl fun i => ?_
      simp only [Stmt.ids, count_append]
      omega
  · refine looks_next.bind fun _ => ?_
    refine (makes_parenExpr n).bind fun cond => ?_
    refine h.stmt.bind fun _ => .count rfl fun i => ?_
    simp only [Stmt.ids, count_append]
    omega
  · refine looks_next.bind fun _ => ?_
    refine h.stmt.bind fun body => ?_
    refine (looks_consume _).bind fun _ => ?_
    refine (makes_parenExpr n).bind fun cond => ?_
    refine (looks_symbol _).bind fun _ => .count rfl fun i => ?_
    simp only [Stmt.ids, count_append]
    omega
  · refine looks_next.bind fun _ => ?_
    refine (makes_forHead n).bind fun head => ?_
    rcases head with ⟨init, cond, next⟩
    refine h.stmt.bind fun _ => .count rfl fun i => ?_
    simp only [Stmt.ids, headIds, optionalIds, count_append]
    omega
  · refine looks_next.bind fun _ => ?_
    refine (makes_parenExpr n).bind fun value => ?_
    refine h.block.bind fun body => .count ?_ fun i => ?_
    · rw [Stmt.moved, Stmt.movedAll_eq_map]
    · simp only [Stmt.ids, count_append]
      omega
  · exact looks_next.bind fun _ => makes_caseLabel _ n prior
  · refine looks_next.bind fun _ => ?_
    exact (looks_symbol _).bind fun _ => .done rfl rfl
  · exact looks_next.bind fun _ => makes_returnStmt _ n prior
  · refine looks_next.bind fun _ => ?_
    exact (looks_symbol _).bind fun _ => .done rfl rfl
  · refine looks_next.bind fun _ => ?_
    exact (looks_symbol _).bind fun _ => .done rfl rfl
  · exact makes_simpleStmt _ n prior

theorem idsOf_append (xs ys : List Stmt) : Stmt.idsOf (xs ++ ys) = Stmt.idsOf xs ++ Stmt.idsOf ys := by
  induction xs with
  | nil => rfl
  | cons x xs ih => rw [cons_append, Stmt.idsOf, ih, Stmt.idsOf, append_assoc]

theorem idsOf_toList (s : Option Stmt) : Stmt.idsOf s.toList = s.toList.flatMap Stmt.ids := by
  cases s with
  | none => rfl
  | some s => simp [Stmt.idsOf]

theorem makes_blockRest_succ {n : Nat} (h : MakesStmts ρ n) :
    Makes ρ (List.map (Stmt.moved ρ.pos)) Stmt.idsOf (blockRest (n + 1)) (blockRest (n + 1)) := by
  intro prior
  rw [blockRest]
  refine looks_peekKind.then fun kind => ?_
  split
  · exact looks_next.bind fun _ => .done rfl rfl
  · exact walks_unexpected _
  · refine (makes_recovering false h.stmt).bind fun first => ?_
    refine h.blockRest.bind fun rest => .count ?_ fun i => ?_
    · cases first <;> rfl
    · simp only [idsOf_append, idsOf_toList, count_append]
      omega

theorem makes_stmts (n : Nat) : MakesStmts ρ n := by
  induction n with
  | zero => exact ⟨fun _ => walks_tooDeep, fun _ => walks_tooDeep, fun _ => walks_tooDeep⟩
  | succ n ih =>
    refine ⟨makes_stmt_succ ih, fun prior => ?_, makes_blockRest_succ ih⟩
    rw [block]
    exact (looks_symbol _).bind fun _ => ih.blockRest prior

/-! ## Items -/

theorem makes_defineLine (token : Token) :
    Makes ρ (Item.moved ρ.pos) Item.ids (defineLine token) (defineLine (token.moved ρ)) := by
  intro prior
  refine .ite ?_ ?_
  · refine Looks.then (.modify (fun s => ?_) (fun _ => rfl) fun _ => suffix_refl _)
      fun _ => .done rfl rfl
    rfl
  · exact .done rfl rfl

theorem looks_fieldNames (n : Nat) (type : TypeSpec) :
    Looks ρ (List.map (FieldDecl.moved ρ.pos)) (fieldNames type n) (fieldNames type n) := by
  intro prior
  induction n with
  | zero => exact walks_tooDeep
  | succ n ih =>
    refine looks_ident.bind fun name => ?_
    refine (looks_acceptSymbol _).then fun more => ?_
    cases more
    · exact (looks_symbol _).bind fun _ => .done rfl rfl
    · exact ih.bind fun _ => .done rfl rfl

theorem looks_structFields (n : Nat) :
    Looks ρ (List.map (FieldDecl.moved ρ.pos)) (structFields n) (structFields n) := by
  intro prior
  induction n with
  | zero => exact walks_tooDeep
  | succ n ih =>
    refine (looks_acceptSymbol _).then fun closed => ?_
    cases closed
    · refine looks_typeSpec.then fun type => ?_
      refine (looks_fieldNames n type).bind fun fields => ?_
      exact ih.bind fun rest => .done map_append.symm rfl
    · exact .done rfl rfl

theorem looks_structDecl (n : Nat) : Looks ρ (StructDecl.moved ρ.pos) (structDecl n) (structDecl n) := by
  intro prior
  refine (looks_consume _).bind fun token => ?_
  refine looks_ident.bind fun name => ?_
  refine (looks_symbol _).bind fun _ => ?_
  refine (looks_structFields n).bind fun fields => ?_
  exact (looks_symbol _).bind fun _ => .done rfl rfl

theorem makes_paramList (n : Nat) : Makes ρ (List.map (Param.moved ρ.pos)) (List.flatMap Param.ids)
    (paramList n) (paramList n) := by
  induction n with
  | zero => exact fun _ => walks_tooDeep
  | succ n ih =>
    intro prior
    refine looks_peek.bind fun token => ?_
    refine looks_typeSpec.then fun type => ?_
    refine looks_ident.bind fun name => ?_
    refine (makes_afterEquals (makes_exprs n).conditional).bind fun default => ?_
    refine (makes_node _).bind fun node => ?_
    refine (looks_acceptSymbol _).then fun more => ?_
    cases more
    · exact (looks_symbol _).bind fun _ => .pure rfl (by simp [Param.ids, optionalIds])
    · refine ih.bind fun _ => .count rfl fun i => ?_
      simp only [flatMap_cons, Param.ids, optionalIds, count_append, count_cons, count_nil]
      omega

theorem missingDefaults_map_moved (ps : List Param) (seen : Bool) :
    missingDefaults seen (ps.map (Param.moved ρ.pos)) = (missingDefaults seen ps).map (Param.moved ρ.pos) := by
  induction ps generalizing seen with
  | nil => rfl
  | cons p ps ih =>
    simp only [map_cons, missingDefaults, Param.moved, Option.isSome_map, ih]
    split_ifs <;> rfl

theorem looks_reportMissing (ps : List Param) :
    Looks ρ id (reportMissing ps) (reportMissing (ps.map (Param.moved ρ.pos))) := by
  intro prior
  rw [reportMissing, reportMissing, missingDefaults_map_moved]
  generalize missingDefaults false ps = qs
  induction qs with
  | nil => exact .done rfl rfl
  | cons q qs ih => exact (looks_report rfl).then fun _ => ih

theorem looks_skipVoid : Looks ρ id skipVoid skipVoid := by
  intro prior
  refine looks_peekKind.then fun kind => ?_
  refine (looks_peekNth 1).bind fun ahead => ?_
  refine .ite ?_ ?_
  · exact looks_next.bind fun _ => .done rfl rfl
  · exact .done rfl rfl

theorem makes_paramsToEnd (n : Nat) : Makes ρ (List.map (Param.moved ρ.pos)) (List.flatMap Param.ids)
    (paramsToEnd n) (paramsToEnd n) := by
  intro prior
  refine (looks_acceptSymbol _).then fun closed => ?_
  cases closed
  · exact makes_paramList n prior
  · exact .done rfl rfl

theorem makes_params (n : Nat) :
    Makes ρ (List.map (Param.moved ρ.pos)) (List.flatMap Param.ids) (params n) (params n) := by
  intro prior
  refine (looks_symbol _).bind fun _ => ?_
  refine looks_skipVoid.then fun _ => ?_
  refine (makes_paramsToEnd n).bind fun ps => ?_
  exact (looks_reportMissing ps).then fun _ => .done rfl rfl

theorem update_map_moved {f g : PrototypeEntry → PrototypeEntry} (h : ∀ e, g (e.moved ρ.pos) = (f e).moved ρ.pos)
    (name : String) (es : List PrototypeEntry) :
    PrototypeEntry.update name g (es.map (PrototypeEntry.moved ρ.pos)) =
      (PrototypeEntry.update name f es).map (PrototypeEntry.moved ρ.pos) := by
  have hnew : g { name } = (f { name }).moved ρ.pos := h { name }
  induction es with
  | nil => simp [PrototypeEntry.update, hnew]
  | cons e es ih =>
    simp only [map_cons, PrototypeEntry.update, ih, h, hnew,
      show (e.moved ρ.pos).name = e.name from rfl]
    split_ifs <;> rfl

theorem looks_setPrototypes {f g : PrototypeEntry → PrototypeEntry}
    (h : ∀ e, g (e.moved ρ.pos) = (f e).moved ρ.pos) (name : String) :
    Looks ρ id (modify fun s => { s with prototypes := PrototypeEntry.update name f s.prototypes })
      (modify fun s => { s with prototypes := PrototypeEntry.update name g s.prototypes }) :=
  .modify (fun s => congrArg (fun es => { s.moved ρ with prototypes := es }) (update_map_moved h ..))
    (fun _ => rfl) fun _ => suffix_refl _

theorem makes_function (pos : Pos) (ret : TypeSpec) (name : String) (n : Nat) :
    Makes ρ (Item.moved ρ.pos) Item.ids (function pos ret name n) (function (ρ.pos pos) ret name n) := by
  intro prior
  refine (makes_params n).bind fun params => ?_
  refine (looks_acceptSymbol _).then fun found => ?_
  cases found
  · refine (looks_setPrototypes (fun e => ?_) name).then fun _ => ?_
    · cases h : e.definition <;> simp [PrototypeEntry.moved, h]
    · refine (makes_stmts n).block.bind fun _ => .count rfl fun i => ?_
      simp only [Item.ids, count_append]
      omega
  · refine (looks_setPrototypes (fun e => ?_) name).then fun _ => .done rfl rfl
    simp [PrototypeEntry.moved]

theorem makes_constant (pos : Pos) (n : Nat) :
    Makes ρ (Item.moved ρ.pos) Item.ids (constant pos n) (constant (ρ.pos pos) n) := by
  intro prior
  refine looks_typeSpec.then fun type => ?_
  refine looks_ident.bind fun first => ?_
  exact (makes_varDecl pos true type first n).bind fun _ => .done rfl rfl

theorem makes_functionOrVariable (pos : Pos) (n : Nat) :
    Makes ρ (Item.moved ρ.pos) Item.ids (functionOrVariable pos n) (functionOrVariable (ρ.pos pos) n) := by
  intro prior
  refine looks_typeSpec.then fun type => ?_
  refine looks_ident.bind fun first => ?_
  refine looks_peekKind.then fun kind => ?_
  split
  · exact makes_function pos type first.1 n prior
  · exact (makes_varDecl pos false type first n).bind fun _ => .done rfl rfl

def itemIds (item : Option Item) : List NodeId := item.toList.flatMap Item.ids

theorem makes_item (n : Nat) : Makes ρ (Option.map (Item.moved ρ.pos)) itemIds (item n) (item n) := by
  intro prior
  refine looks_peek.bind fun token => ?_
  simp only [Token.moved_kind, Token.moved_text, Token.moved_pos]
  split
  · exact looks_next.bind fun _ => .done rfl rfl
  · refine looks_next.bind fun _ => ?_
    exact (makes_defineLine token).some prior
  · exact looks_next.bind fun _ => .done rfl rfl
  · refine (looks_peekNth 2).bind fun ahead => ?_
    refine .ite ?_ ?_
    · exact (looks_structDecl n).bind fun _ => .done rfl rfl
    · exact (makes_functionOrVariable _ n).some prior
  · refine looks_next.bind fun _ => ?_
    exact (makes_constant _ n).some prior
  · exact (makes_functionOrVariable _ n).some prior

theorem flatMap_itemIds (item : Option (Option Item)) :
    item.join.toList.flatMap Item.ids = item.toList.flatMap itemIds := by
  cases item with
  | none => rfl
  | some item => simp [itemIds]

theorem makes_items (n : Nat) : Makes ρ (Program.moved ρ.pos) Program.ids (items n) (items n) := by
  induction n with
  | zero => exact fun _ => walks_tooDeep
  | succ n ih =>
    intro prior
    refine looks_peekKind.then fun kind => ?_
    split
    · exact .done rfl rfl
    · refine (makes_recovering true (makes_item n)).bind fun first => ?_
      refine ih.bind fun rest => .count ?_ fun i => ?_
      · rcases first with _ | _ | item <;> rfl
      · simp only [Program.ids, flatMap_append, flatMap_itemIds, count_append]
        omega

end Parser

/-! ## Programs -/

theorem parse_map_moved (ρ : Relocation) (engineTypes : List String) (ts : List Token) :
    parse engineTypes (ts.map (Token.moved ρ)) = (parse engineTypes ts).moved ρ.pos := by
  have hsteps : parseSteps (ts.map (Token.moved ρ)) = parseSteps ts := by simp [parseSteps]
  unfold parse
  generalize hstart : ({ stream := .ofTokens ts, engineTypes } : ParserState) = start
  have hmoved : ({ stream := .ofTokens (ts.map (Token.moved ρ)), engineTypes } : ParserState) =
      start.moved ρ := by
    rw [← hstart, ParserState.moved, TokenStream.moved_ofTokens]
    rfl
  have hrun : Parser.items (parseSteps ts) (start.moved ρ) = _ := (Parser.makes_items (parseSteps ts) []).blind start
  simp only [hsteps, hmoved, hrun]
  cases Parser.items (parseSteps ts) start with
  | ok program s => simp [Parser.movedResult, Parsed.moved, ParserState.moved]
  | error e s => simp [Parser.movedResult, Parsed.moved, ParserState.moved, Program.moved]

/-- What is read from tokens that stand where `P` holds stands there too, or at the beginning. -/
theorem parse_within {P : Pos → Prop} [DecidablePred P] (engineTypes : List String) {ts : List Token}
    (h : ∀ t ∈ ts, P t.pos) :
    (parse engineTypes ts).moved (Relocation.within P).pos = parse engineTypes ts := by
  have hsame : ts.map (Token.moved (.within P)) = ts.map id :=
    map_congr_left fun t ht => by simp [Token.moved, Relocation.within, h t ht]
  rw [← parse_map_moved, hsame, map_id]

theorem parse_between (engineTypes : List String) (tokens : List Token) :
    Between 0 (parse engineTypes tokens).nodeCount (parse engineTypes tokens).program.ids := by
  have h := (Parser.makes_items (parseSteps tokens) []).adds (ρ := .off)
    { stream := .ofTokens tokens, engineTypes } 0 (.nil (Nat.zero_le _))
  unfold parse
  unfold Parser.Reads at h
  dsimp only
  cases hp : Parser.items (parseSteps tokens) { stream := .ofTokens tokens, engineTypes } with
  | ok program s =>
    rw [hp] at h
    simpa using h.2
  | error e s => exact .nil (Nat.zero_le _)

/-- No two nodes of a program share an entry of a table, whatever tokens it was read from. -/
theorem parse_ids_apart (engineTypes : List String) (tokens : List Token) :
    (parse engineTypes tokens).program.ids.Nodup ∧
      (∀ id ∈ (parse engineTypes tokens).program.ids, id < (parse engineTypes tokens).nodeCount) ∧
      ∀ {α : Type} (table : NodeTable α) (entry : α),
        (parse engineTypes tokens).program.ids.Pairwise fun id other =>
          (table.insert id entry).get? other = table.get? other ∧
            (table.insert other entry).get? id = table.get? id := by
  have h := parse_between engineTypes tokens
  refine ⟨h.nodup, fun id hid => (h.range id hid).2, fun table entry => ?_⟩
  refine h.nodup.imp fun {id other} hne => ?_
  exact ⟨table.get?_insert_ne entry (Ne.symm hne), table.get?_insert_ne entry hne⟩

end Nwscript
