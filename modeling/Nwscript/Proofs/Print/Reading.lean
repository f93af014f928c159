import Nwscript.Proofs.Print.Basic

/-! # Reading written tokens

What a parser does with tokens of which only kind and text are known, one rule for each of its steps.
What comes behind them is known by a condition on the kind of the next token. -/

namespace Nwscript

/-! ## States -/

def firstKind (ts : List Token) (follow : TokenKind) : TokenKind := (ts.map Token.kind).headD follow

@[simp] theorem firstKind_nil (follow : TokenKind) : firstKind [] follow = follow := rfl

@[simp] theorem firstKind_cons (t : Token) (ts : List Token) (follow : TokenKind) :
    firstKind (t :: ts) follow = t.kind := rfl

theorem firstKind_append (ts us : List Token) (follow : TokenKind) :
    firstKind (ts ++ us) follow = firstKind ts (firstKind us follow) := by
  cases ts <;> rfl

@[simp] theorem firstKind_map_bare (ts : List Token) (follow : TokenKind) :
    firstKind (ts.map Token.bare) follow = firstKind ts follow := by
  cases ts <;> rfl

namespace ParserState

def facing (s : ParserState) (rest : List Token) (id : NodeId) : ParserState :=
  { s with stream := { s.stream with rest }, nextId := id }

def ahead (s : ParserState) (rest : List Token) : TokenKind := firstKind rest s.stream.eof.kind

theorem ahead_append (s : ParserState) (ts rest : List Token) :
    s.ahead (ts ++ rest) = firstKind ts (s.ahead rest) := firstKind_append ..

theorem facing_peekKind (s : ParserState) (rest : List Token) (id : NodeId) :
    (s.facing rest id).stream.peekKind = s.ahead rest := by
  cases rest <;> rfl

end ParserState

/-! ## Steps -/

namespace Parser

/-- Over tokens written as `ws`, before a token of a kind in `F`, the parser comes to what `q` does with
the rest, for a value in `Q`. Nothing of the state changes but the tokens ahead and the next number. -/
def Leads {α β : Type} (s : ParserState) (p : Parser α) (ws : List Token) (F : TokenKind → Prop)
    (q : β → Parser α) (Q : β → Prop) : Prop :=
  ∀ ts rest id, ts.map Token.bare = ws → F (s.ahead rest) →
    ∃ b id', p (s.facing (ts ++ rest) id) = q b (s.facing rest id') ∧ Q b

def Takes {α : Type} (s : ParserState) (p : Parser α) (ws : List Token) (F : TokenKind → Prop)
    (Q : α → Prop) : Prop :=
  Leads s p ws F pure Q

theorem bind_ok {α β : Type} {p : Parser α} {k : α → Parser β} {s s' : ParserState} {a : α}
    (h : p s = .ok a s') : (p >>= k) s = k a s' := by
  show EStateM.bind p k s = _
  unfold EStateM.bind
  rw [h]

section Rules

variable {α β γ : Type} {s : ParserState} {ws vs : List Token} {w : Token} {E F : TokenKind → Prop}
  {q : γ → Parser β} {Q : α → Prop} {R : γ → Prop}

theorem Leads.weaken {p : Parser β} {R' : γ → Prop} (h : Leads s p ws E q R) (hE : ∀ k, F k → E k)
    (hR : ∀ c, R c → R' c) : Leads s p ws F q R' := by
  intro ts rest id hts hF
  obtain ⟨c, id', hc, hRc⟩ := h ts rest id hts (hE _ hF)
  exact ⟨c, id', hc, hR c hRc⟩

theorem Leads.trans {p : Parser β} {r : α → Parser β} (hp : Leads s p ws E r Q)
    (hE : ∀ k, F k → E (firstKind vs k)) (hr : ∀ a, Q a → Leads s (r a) vs F q R) :
    Leads s p (ws ++ vs) F q R := by
  intro ts rest id hts hF
  obtain ⟨ts, us, rfl, hts, hus⟩ := List.map_eq_append_iff.mp hts
  have hahead : E (s.ahead (us ++ rest)) := by
    rw [s.ahead_append, ← firstKind_map_bare, hus]
    exact hE _ hF
  obtain ⟨a, id', ha, hQ⟩ := hp ts (us ++ rest) id hts hahead
  obtain ⟨c, id'', hc, hR⟩ := hr a hQ us rest id' hus hF
  refine ⟨c, id'', ?_, hR⟩
  rw [List.append_assoc, ha, hc]

theorem Leads.done {p : Parser β} {r : α → Parser β} (hp : Leads s p ws E r Q)
    (hE : ∀ k, F k → E k) (hr : ∀ a, Q a → Leads s (r a) [] F q R) : Leads s p ws F q R := by
  have h : Leads s p (ws ++ []) F q R := hp.trans hE hr
  rwa [List.append_nil] at h

theorem Leads.here (q : γ → Parser β) (c : γ) (h : R c) : Leads s (q c) [] F q R := by
  intro ts rest id hts _
  obtain rfl := List.map_eq_nil_iff.mp hts
  exact ⟨c, id, rfl, h⟩

variable {a : α} {p : Parser α} {k : Token → Parser β} {kind : TokenKind}

theorem Leads.pure (h : Q a) : Leads s (Pure.pure a) [] F Pure.pure Q := .here Pure.pure a h

theorem Takes.bind {k : α → Parser β} (hp : Takes s p ws E Q) (hE : ∀ x, F x → E (firstKind vs x))
    (hk : ∀ a, Q a → Leads s (k a) vs F q R) : Leads s (p >>= k) (ws ++ vs) F q R := by
  refine Leads.trans (r := k) (Q := Q) (E := E) ?_ hE hk
  intro ts rest id hts hE
  obtain ⟨a, id', ha, hQ⟩ := hp ts rest id hts hE
  exact ⟨a, id', bind_ok ha, hQ⟩

theorem Takes.then {k : α → Parser β} (hp : Takes s p ws (fun _ => True) Q)
    (hk : ∀ a, Q a → Leads s (k a) vs F q R) : Leads s (p >>= k) (ws ++ vs) F q R :=
  hp.bind (fun _ _ => trivial) hk

theorem Takes.last {k : α → Parser β} (hp : Takes s p ws E Q) (hE : ∀ x, F x → E x)
    (hk : ∀ a, Q a → Leads s (k a) [] F q R) : Leads s (p >>= k) ws F q R := by
  have h : Leads s (p >>= k) (ws ++ []) F q R := hp.bind hE hk
  rwa [List.append_nil] at h

theorem Takes.look {k : α → Parser β} (hp : Takes s p [] E Q) (hE : ∀ x, F x → E (firstKind ws x))
    (hk : ∀ a, Q a → Leads s (k a) ws F q R) : Leads s (p >>= k) ws F q R := hp.bind hE hk

theorem Leads.andThen {r : γ → Parser α} (hp : Leads s p ws F r R) (k : α → Parser β) :
    Leads s (p >>= k) ws F (fun c => r c >>= k) R := by
  intro ts rest id hts hF
  obtain ⟨c, id', hc, hR⟩ := hp ts rest id hts hF
  refine ⟨c, id', ?_, hR⟩
  show EStateM.bind p k _ = EStateM.bind (r c) k _
  unfold EStateM.bind
  rw [hc]

theorem Leads.step {k : α → Parser β}
    (hp : ∀ ts rest id, ts.map Token.bare = ws → F (s.ahead rest) →
      p (s.facing (ts ++ rest) id) = .ok a (s.facing (ts ++ rest) id)) (h : Leads s (k a) ws F q R) :
    Leads s (p >>= k) ws F q R := by
  intro ts rest id hts hF
  obtain ⟨c, id', hc, hR⟩ := h ts rest id hts hF
  exact ⟨c, id', (bind_ok (hp ts rest id hts hF)).trans hc, hR⟩

theorem Leads.readStep {k : α → Parser β} {f : Token → α}
    (hp : ∀ t ts id, t.kind = w.kind → p (s.facing (t :: ts) id) = .ok (f t) (s.facing ts id))
    (h : ∀ t, t.kind = w.kind → t.text = w.text → Leads s (k (f t)) ws F q R) :
    Leads s (p >>= k) (w :: ws) F q R := by
  intro ts rest id hts hF
  obtain ⟨t, ts, rfl, rfl, rfl⟩ := List.map_eq_cons_iff.mp hts
  obtain ⟨c, id', hc, hR⟩ := h t rfl rfl ts rest id rfl hF
  exact ⟨c, id', (bind_ok (hp t (ts ++ rest) id rfl)).trans hc, hR⟩

theorem Leads.next (h : ∀ t, t.kind = w.kind → t.text = w.text → Leads s (k t) ws F q R) :
    Leads s (Parser.next >>= k) (w :: ws) F q R := .readStep (fun _ _ _ _ => rfl) h

theorem Leads.consume (hw : w.kind = kind)
    (h : ∀ t, t.kind = w.kind → t.text = w.text → Leads s (k t) ws F q R) :
    Leads s (Parser.consume kind >>= k) (w :: ws) F q R := by
  refine .readStep (fun t ts id ht => ?_) h
  have hs : (s.facing (t :: ts) id).stream.consume kind = (.ok t, (s.facing ts id).stream) :=
    if_pos (ht.trans hw)
  simp only [Parser.consume, bind, EStateM.bind, get, getThe, MonadStateOf.get, EStateM.get, hs]
  rfl

theorem Leads.symbol {x : Symbol} (h : ∀ t, Leads s (k t) ws F q R) :
    Leads s (Parser.symbol x >>= k) (x.token :: ws) F q R := .consume rfl fun t _ _ => h t

theorem Leads.ident {name : String} {k : String × Pos → Parser β}
    (h : ∀ pos, Leads s (k (name, pos)) ws F q R) :
    Leads s (Parser.ident >>= k) (nameToken name :: ws) F q R := by
  rw [Parser.ident, bind_assoc]
  refine .consume rfl fun t _ ht => ?_
  simp only [pure_bind]
  exact ht ▸ h t.pos

theorem Leads.acceptYes {k : Bool → Parser β} (hw : w.kind = kind) (h : Leads s (k true) ws F q R) :
    Leads s (Parser.accept kind >>= k) (w :: ws) F q R := by
  refine .readStep (f := fun _ => true) (fun t ts id ht => ?_) fun _ _ _ => h
  have hs : (s.facing (t :: ts) id).stream.accept kind = (true, (s.facing ts id).stream) :=
    if_pos (ht.trans hw)
  simp only [Parser.accept, bind, EStateM.bind, get, getThe, MonadStateOf.get, EStateM.get, hs]
  rfl

theorem Leads.acceptNo {k : Bool → Parser β} (hw : ∀ x, F x → firstKind ws x ≠ kind)
    (h : Leads s (k false) ws F q R) : Leads s (Parser.accept kind >>= k) ws F q R := by
  refine .step (fun ts rest id hts hF => ?_) h
  have hne : s.ahead (ts ++ rest) ≠ kind := by
    rw [s.ahead_append, ← firstKind_map_bare, hts]
    exact hw _ hF
  have hs : (s.facing (ts ++ rest) id).stream.accept kind =
      (false, (s.facing (ts ++ rest) id).stream) :=
    if_neg (by rwa [s.facing_peekKind])
  simp only [Parser.accept, bind, EStateM.bind, get, getThe, MonadStateOf.get, EStateM.get, hs]
  rfl

theorem Leads.peek (h : ∀ t, t.kind = w.kind → t.text = w.text → Leads s (k t) (w :: ws) F q R) :
    Leads s (Parser.peek >>= k) (w :: ws) F q R := by
  intro ts rest id hts hF
  obtain ⟨t, ts, rfl, rfl, rfl⟩ := List.map_eq_cons_iff.mp hts
  exact h t rfl rfl (t :: ts) rest id rfl hF

theorem Leads.peekAny (h : ∀ t, Leads s (k t) ws F q R) : Leads s (Parser.peek >>= k) ws F q R :=
  fun ts rest id hts hF => h (s.facing (ts ++ rest) id).stream.peek ts rest id hts hF

theorem Leads.peekFollow (h : ∀ t, F t.kind → Leads s (k t) [] F q R) :
    Leads s (Parser.peek >>= k) [] F q R := by
  intro ts rest id hts hF
  obtain rfl := List.map_eq_nil_iff.mp hts
  have hF' : F (rest.headD s.stream.eof).kind := by
    cases rest <;> exact hF
  exact h _ hF' [] rest id rfl hF

theorem Leads.peekKind {k : TokenKind → Parser β}
    (h : ∀ x, F x → Leads s (k (firstKind ws x)) ws F q R) :
    Leads s (Parser.peekKind >>= k) ws F q R := by
  intro ts rest id hts hF
  obtain ⟨c, id', hc, hR⟩ := h _ hF ts rest id hts hF
  refine ⟨c, id', ?_, hR⟩
  rw [← hc, ← hts, firstKind_map_bare, ← s.ahead_append, ← s.facing_peekKind _ id]
  rfl

theorem Leads.peekNth (h : ∀ t x, F x → t.kind = firstKind vs x → Leads s (k t) (ws ++ vs) F q R) :
    Leads s (Parser.peekNth ws.length >>= k) (ws ++ vs) F q R := by
  intro ts rest id hts hF
  obtain ⟨ts, us, rfl, rfl, rfl⟩ := List.map_eq_append_iff.mp hts
  have hk : ((ts ++ us ++ rest)[(ts.map Token.bare).length]?.getD s.stream.eof).kind =
      firstKind (us.map Token.bare) (s.ahead rest) := by
    rw [List.length_map, List.append_assoc, List.getElem?_append_right le_rfl, Nat.sub_self,
      firstKind_map_bare, ← s.ahead_append]
    cases us ++ rest <;> rfl
  exact h _ _ hF hk (ts ++ us) rest id List.map_append hF

theorem Leads.peekSecond (h : ∀ t x, F x → t.kind = firstKind ws x → Leads s (k t) (w :: ws) F q R) :
    Leads s (Parser.peekNth 1 >>= k) (w :: ws) F q R :=
  show Leads s (Parser.peekNth [w].length >>= k) ([w] ++ ws) F q R from .peekNth h

theorem Leads.peekThird {v : Token}
    (h : ∀ t x, F x → t.kind = firstKind ws x → Leads s (k t) (w :: v :: ws) F q R) :
    Leads s (Parser.peekNth 2 >>= k) (w :: v :: ws) F q R :=
  show Leads s (Parser.peekNth [w, v].length >>= k) ([w, v] ++ ws) F q R from .peekNth h

theorem Leads.isEngineType {name : String} {k : Bool → Parser β}
    (h : Leads s (k (s.engineTypes.contains name)) ws F q R) :
    Leads s (Parser.isEngineType name >>= k) ws F q R := h

theorem recovering_ok {topLevel : Bool} {s s' : ParserState} (h : p s = .ok a s') :
    recovering topLevel p s = .ok (some a) s' := by
  simp only [recovering, tryCatch, tryCatchThe, MonadExceptOf.tryCatch, EStateM.tryCatch, Functor.map,
    EStateM.map, h]

theorem Takes.recovering (hp : Takes s p ws F Q) (topLevel : Bool) :
    Takes s (Parser.recovering topLevel p) ws F fun o => ∃ a, o = some a ∧ Q a := by
  intro ts rest id hts hF
  obtain ⟨a, id', ha, hQ⟩ := hp ts rest id hts hF
  exact ⟨some a, id', recovering_ok ha, a, rfl, hQ⟩

theorem Leads.node {pos : Pos} {k : Node → Parser β} (h : ∀ n, Leads s (k n) ws F q R) :
    Leads s (Parser.node pos >>= k) ws F q R :=
  fun ts rest id => h ⟨id, pos⟩ ts rest (id + 1)

end Rules

end Parser

end Nwscript
