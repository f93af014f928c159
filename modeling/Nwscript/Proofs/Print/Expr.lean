import Nwscript.Proofs.Print.Reading

/-! # Written expressions are read back

An expression that is written with parentheses only where the levels of the operators need them is
read as the same expression. Each level of the grammar has a function of its own that reads it; the
functions for left operands and suffixes are loops, so what is said of them is where they have got to
behind the tokens of an expression, not what they return. -/

open List Option

namespace Nwscript

/-! ## First tokens -/

def operandKinds : List TokenKind :=
  [.intLit, .floatLit, .stringLit, .ident, .keyword .kwObjectSelf, .keyword .kwObjectInvalid,
    .symbol .leftParen, .symbol .leftBracket]

def exprKinds : List TokenKind :=
  operandKinds ++
    [.symbol .minus, .symbol .bang, .symbol .tilde, .symbol .plusPlus, .symbol .minusMinus]

def Begins (kinds : List TokenKind) (ws : List Token) : Prop := ∃ w vs, ws = w :: vs ∧ w.kind ∈ kinds

variable {k : TokenKind} {level : Nat}

namespace Begins

variable {kinds kinds' : List TokenKind} {ws : List Token}

theorem cons {w : Token} (h : w.kind ∈ kinds) : Begins kinds (w :: ws) := ⟨w, ws, rfl, h⟩

theorem append (h : Begins kinds ws) (vs : List Token) : Begins kinds (ws ++ vs) := by
  obtain ⟨w, us, rfl, hw⟩ := h
  exact cons hw

theorem mono (h : Begins kinds ws) (hk : kinds ⊆ kinds') : Begins kinds' ws := by
  obtain ⟨w, us, rfl, hw⟩ := h
  exact cons (hk hw)

theorem firstKind_mem (h : Begins kinds ws) (follow : TokenKind) : firstKind ws follow ∈ kinds := by
  obtain ⟨w, us, rfl, hw⟩ := h
  exact hw

theorem firstKind_ne (h : Begins kinds ws) (hk : k ∉ kinds) (follow : TokenKind) :
    firstKind ws follow ≠ k := fun e => hk (e ▸ h.firstKind_mem follow)

theorem length_pos (h : Begins kinds ws) : 0 < ws.length := by
  obtain ⟨w, us, rfl, -⟩ := h
  exact Nat.succ_pos _

end Begins

theorem BinOp.level_eq (op : BinOp) : op.level = op.power + 1 := by cases op <;> rfl

theorem BinOp.one_lt_level (op : BinOp) : 1 < op.level := by cases op <;> decide

theorem BinOp.level_lt (op : BinOp) : op.level < 12 := by cases op <;> decide

theorem operandKinds_subset : operandKinds ⊆ exprKinds := subset_append_left ..

theorem Spells.begins {value : Value} {ws : List Token} (h : Spells value ws) :
    Begins operandKinds ws := by
  cases h <;> exact .cons (by simp [operandKinds])

namespace Expr

variable {spell : NodeId → List Token} {e : Expr}

theorem begins_bracket {kinds : List TokenKind} {ws : List Token} {least : Nat}
    (hp : .symbol .leftParen ∈ kinds) (h : least ≤ level → Begins kinds ws) :
    Begins kinds (bracket least level ws) := by
  unfold bracket
  split
  · exact .cons hp
  · exact h (by omega)

theorem Writable.begins_operand (he : e.Writable spell) (hl : 13 ≤ e.level) :
    Begins operandKinds (e.print spell) := by
  induction e using Expr.inductionOn with
  | literal node value => exact he.root.begins
  | ident node name | call node name _ _ => exact .cons (w := nameToken name) (by simp [operandKinds])
  | step node s order target ih =>
    cases order with
    | stepFirst => simp [level] at hl
    | valueFirst =>
      rw [print]
      exact (begins_bracket (by decide) (ih (he.child (by simp [children])))).append _
  | field node base name ih =>
    rw [print]
    exact (begins_bracket (by decide) (ih (he.child (by simp [children])))).append _
  | binary node op lhs rhs _ _ =>
    have := op.level_lt
    rw [level] at hl
    omega
  | unary node op operand _ => simp [level] at hl
  | assign node op target value _ _ => simp [level] at hl
  | conditional node cond yes no _ _ _ => simp [level] at hl

theorem Writable.begins (he : e.Writable spell) : Begins exprKinds (e.print spell) := by
  induction e using Expr.inductionOn with
  | literal node value => exact he.root.begins.mono operandKinds_subset
  | ident node name | call node name _ _ => exact .cons (w := nameToken name) (by simp [exprKinds, operandKinds])
  | step node s order target ih =>
    cases order with
    | stepFirst =>
      rw [print]
      exact .cons (by cases s <;> decide)
    | valueFirst =>
      rw [print]
      exact (begins_bracket (by decide) fun _ => ih (he.child (by simp [children]))).append _
  | unary node op operand _ =>
    rw [print]
    exact .cons (by cases op <;> decide)
  | binary node op lhs rhs ih _ | field node lhs _ ih | assign node op lhs rhs ih _
  | conditional node lhs yes no ih _ _ =>
    rw [print]
    exact (begins_bracket (by decide) fun _ => ih (he.child (by simp [children]))).append _

end Expr

/-! ## Last tokens -/

namespace Parser

/-- The symbols that go on with an expression that stands before them. -/
def continuations : List Symbol :=
  BinOp.all.map BinOp.symbol ++
    [.eq, .plusEq, .minusEq, .starEq, .slashEq, .percentEq, .ampEq, .pipeEq, .caretEq, .shlEq, .shrEq,
      .ushrEq, .question, .plusPlus, .minusMinus, .dot, .leftParen]

def EndsExpr (k : TokenKind) : Prop := ∀ x ∈ continuations, k ≠ .symbol x

instance (k : TokenKind) : Decidable (EndsExpr k) :=
  inferInstanceAs (Decidable (∀ x ∈ continuations, k ≠ .symbol x))

theorem endsExpr_rightParen : EndsExpr (.symbol .rightParen) := by decide

/-- It can not go on with an operand. -/
structure EndsOperand (k : TokenKind) : Prop where
  paren : k ≠ .symbol .leftParen
  step : step? k = none
  dot : k ≠ .symbol .dot

/-- It can not go on with an expression of this level, unless with an operator that binds no tighter. -/
structure EndsBelow (level : Nat) (k : TokenKind) : Prop extends EndsOperand k where
  power : ∀ op, k.binOp? = some op → op.power < level

/-- It can not go on with a choice, unless the choice is assigned to. -/
structure EndsConditional (k : TokenKind) : Prop extends EndsOperand k where
  binOp : k.binOp? = none
  question : k ≠ .symbol .question

variable {level' : Nat} {F : TokenKind → Prop} {x : Single} {target : Expr} {vs : List Token}

theorem EndsBelow.mono (h : EndsBelow level k) (hl : level ≤ level') : EndsBelow level' k :=
  ⟨h.toEndsOperand, fun op hop => (h.power op hop).trans_le hl⟩

theorem EndsConditional.below (h : EndsConditional k) (level : Nat) :
    EndsBelow level k := ⟨h.toEndsOperand, fun op hop => by simp [h.binOp] at hop⟩

theorem EndsExpr.conditional_assignment (h : EndsExpr k) :
    EndsConditional k ∧ k.assignment? = none := by
  cases k with
  | symbol x =>
    have hx : x ∉ continuations := fun hx => h x hx rfl
    revert hx
    cases x <;> first
      | exact fun hx => absurd (by decide) hx
      | exact fun _ => ⟨⟨⟨by decide, rfl, by decide⟩, rfl, by decide⟩, rfl⟩
  | _ => exact ⟨⟨⟨by simp, rfl, by simp⟩, rfl, by simp⟩, rfl⟩

theorem endsBelow_binOp (op : BinOp) : EndsBelow op.level (.symbol op.symbol) := by
  have hop : (TokenKind.symbol op.symbol).binOp? = some op := by cases op <;> rfl
  refine ⟨⟨by cases op <;> decide, by cases op <;> rfl, by cases op <;> decide⟩, fun op' h => ?_⟩
  rw [hop, Option.some.injEq] at h
  rw [← h, op.level_eq]
  omega

theorem endsExpr_colon : EndsExpr (.symbol .colon) := by decide

theorem endsExpr_comma : EndsExpr (.symbol .comma) := by decide

theorem endsBelow_question : EndsBelow 1 (.symbol .question) :=
  ⟨⟨by decide, rfl, by decide⟩, fun _ h => by cases h⟩

theorem assignment_symbol {op : Option BinOp} {x : Symbol} (h : assignSymbol? op = some x) :
    (TokenKind.symbol x).assignment? = some op ∧ EndsConditional (.symbol x) := by
  cases op with
  | none =>
    cases h
    exact ⟨rfl, ⟨by decide, rfl, by decide⟩, rfl, by decide⟩
  | some op =>
    cases op <;> cases h <;> exact ⟨rfl, ⟨by decide, rfl, by decide⟩, rfl, by decide⟩

/-! ## Levels of the grammar

How the functions of the grammar read the tokens `ws` of an expression `e`. The steps they need are
counted by the tokens; a loop that has read tokens has used up no more steps than these. -/

section Levels

variable (s : ParserState) (ws : List Token) (e : Expr)

def ReadsPrimary : Prop :=
  ∀ n, 8 * ws.length ≤ n → Takes s (primary n) ws (· ≠ .symbol .leftParen) (·.shape = e.shape)

/-- The loop over suffixes gets behind the expression. -/
def ReadsSuffixed : Prop :=
  ∀ n, 8 * ws.length ≤ n → ∃ m, n ≤ m + ws.length ∧
    Leads s (primary n >>= fun x => suffixes x n) ws (· ≠ .symbol .leftParen) (suffixes · m)
      (·.shape = e.shape)

def ReadsUnary : Prop :=
  ∀ n, 8 * ws.length + 1 ≤ n → Takes s (unary n) ws EndsOperand (·.shape = e.shape)

/-- The loop over operators that may stand around expressions of this level gets behind the
expression. -/
def ReadsBinary (level : Nat) : Prop :=
  ∀ power < level, ∀ n, 8 * ws.length + 2 ≤ n → ∃ m, n ≤ m + ws.length ∧
    Leads s (binary power n) ws (EndsBelow level) (binaryTail power · m) (·.shape = e.shape)

def ReadsConditional : Prop :=
  ∀ n, 8 * ws.length + 3 ≤ n → Takes s (conditional n) ws EndsConditional (·.shape = e.shape)

def ReadsExpr : Prop :=
  ∀ n, 8 * ws.length + 4 ≤ n → Takes s (expr n) ws EndsExpr (·.shape = e.shape)

/-- The tokens are read wherever an expression of at most this level may stand. -/
structure ReadsUpTo (level : Nat) : Prop where
  expr : ReadsExpr s ws e
  conditional : 1 ≤ level → ReadsConditional s ws e
  binary : 2 ≤ level → ReadsBinary s ws e level
  unary : 12 ≤ level → ReadsUnary s ws e
  suffixed : 13 ≤ level → ReadsSuffixed s ws e
  primary : 14 ≤ level → ReadsPrimary s ws e

end Levels

variable {s : ParserState} {ws : List Token} {e : Expr}

/-! ### From one level to the next -/

theorem suffixes_stop (x : Expr) (n : Nat) : Takes s (suffixes x (n + 1)) [] EndsOperand (· = x) := by
  rw [suffixes]
  refine .peekFollow fun t ht => ?_
  simp only [ht.step, if_neg ht.dot]
  exact .pure rfl

theorem binaryTail_stop (power : Nat) (x : Expr) (n : Nat) :
    Takes s (binaryTail power x (n + 1)) [] (EndsBelow power) (· = x) := by
  rw [binaryTail]
  refine .peekKind fun k hk => ?_
  cases hop : k.binOp? with
  | none =>
    simp only [firstKind_nil, hop]
    exact .pure rfl
  | some op =>
    simp only [firstKind_nil, hop, if_pos (hk.power op hop)]
    exact .pure rfl

theorem ReadsPrimary.suffixed (h : ReadsPrimary s ws e) : ReadsSuffixed s ws e :=
  fun n hn => ⟨n, Nat.le_add_right .., (h n hn).last (fun _ hk => hk) fun x hx =>
    .here (suffixes · n) x hx⟩

theorem not_ahead_of_mem_operandKinds (hk : k ∈ operandKinds) : k.unOp? = none ∧ step? k = none := by
  simp only [operandKinds, mem_cons, not_mem_nil, or_false] at hk
  rcases hk with rfl | rfl | rfl | rfl | rfl | rfl | rfl | rfl <;> exact ⟨rfl, rfl⟩

theorem ReadsSuffixed.unary (h : ReadsSuffixed s ws e) (hb : Begins operandKinds ws) :
    ReadsUnary s ws e := by
  intro n hn
  obtain _ | n := n
  · omega
  obtain ⟨m, hm, hlead⟩ := h n (by omega)
  obtain ⟨m, rfl⟩ : ∃ k, m = k + 1 := ⟨m - 1, by have := hb.length_pos; omega⟩
  obtain ⟨w, vs, rfl, hw⟩ := hb
  rw [Parser.unary]
  refine .peek fun t ht _ => ?_
  obtain ⟨hu, hs⟩ := not_ahead_of_mem_operandKinds (ht ▸ hw)
  simp only [hu, hs]
  refine hlead.done (fun k hk => hk.paren) fun x hx => ?_
  exact (suffixes_stop x m).weaken (fun _ hk => hk) fun y hy => hy ▸ hx

theorem ReadsUnary.binary (h : ReadsUnary s ws e) (hw : 0 < ws.length) (level : Nat) :
    ReadsBinary s ws e level := by
  intro power _ n hn
  obtain _ | n := n
  · omega
  refine ⟨n, by omega, ?_⟩
  rw [Parser.binary]
  exact (h n (by omega)).last (fun k hk => hk.toEndsOperand) fun x hx =>
    .here (binaryTail power · n) x hx

/-- Where no operator of the level follows, the loop ends behind the expression. -/
theorem ReadsBinary.takes (h : ReadsBinary s ws e level) {power n : Nat} (hp : power < level)
    (hn : 8 * ws.length + 2 ≤ n) :
    Takes s (binary power n) ws (EndsBelow power) (·.shape = e.shape) := by
  obtain ⟨m, hm, hlead⟩ := h power hp n hn
  obtain ⟨m, rfl⟩ : ∃ k, m = k + 1 := ⟨m - 1, by omega⟩
  refine hlead.done (fun k hk => hk.mono hp.le) fun x hx => ?_
  exact (binaryTail_stop power x m).weaken (fun _ hk => hk) fun y hy => hy ▸ hx

theorem ReadsBinary.mono (h : ReadsBinary s ws e level) (hl : level' ≤ level) :
    ReadsBinary s ws e level' := by
  intro power hp n hn
  obtain ⟨m, hm, hlead⟩ := h power (hp.trans_le hl) n hn
  exact ⟨m, hm, hlead.weaken (fun k hk => hk.mono hl) fun _ hx => hx⟩

theorem ReadsBinary.conditional (h : ReadsBinary s ws e level) (hl : 2 ≤ level) :
    ReadsConditional s ws e := by
  intro n hn
  obtain _ | n := n
  · omega
  rw [Parser.conditional]
  refine (h.takes (by omega) (by omega)).last (fun k hk => hk.below 1) fun x hx => ?_
  refine .peekKind fun k hk => ?_
  rw [firstKind_nil, if_neg hk.question]
  exact .pure hx

theorem ReadsConditional.expr (h : ReadsConditional s ws e) : ReadsExpr s ws e := by
  intro n hn
  obtain _ | n := n
  · omega
  rw [Parser.expr]
  refine (h n (by omega)).last (fun k hk => hk.conditional_assignment.1) fun x hx => ?_
  refine .peekKind fun k hk => ?_
  simp only [firstKind_nil, hk.conditional_assignment.2]
  exact .pure hx

theorem ReadsExpr.inParens (h : ReadsExpr s ws e) : ReadsPrimary s (inParens ws) e := by
  intro n hn
  simp only [Nwscript.inParens, length_cons, length_append, length_nil] at hn
  obtain _ | n := n
  · omega
  rw [Parser.primary, Nwscript.inParens]
  refine .peek fun t ht _ => ?_
  simp only [ht, Symbol.token_kind]
  refine .next fun _ _ _ => (h n (by omega)).bind (fun _ _ => endsExpr_rightParen) fun x hx => ?_
  exact .symbol fun _ => .pure hx

/-! ### All levels below one -/

namespace ReadsUpTo

theorem ofExpr (h : ReadsExpr s ws e) : ReadsUpTo s ws e 0 :=
  { expr := h, conditional := by omega, binary := by omega, unary := by omega, suffixed := by omega,
    primary := by omega }

theorem ofConditional (h : ReadsConditional s ws e) : ReadsUpTo s ws e 1 :=
  { expr := h.expr, conditional := fun _ => h, binary := by omega, unary := by omega,
    suffixed := by omega, primary := by omega }

theorem ofBinary (h : ReadsBinary s ws e level) (hl : 2 ≤ level) (hu : level < 12) :
    ReadsUpTo s ws e level :=
  { expr := (h.conditional hl).expr, conditional := fun _ => h.conditional hl, binary := fun _ => h,
    unary := by omega, suffixed := by omega, primary := by omega }

theorem ofUnary (h : ReadsUnary s ws e) (hw : 0 < ws.length) : ReadsUpTo s ws e 12 :=
  have hb (level : Nat) : ReadsBinary s ws e level := h.binary hw level
  { expr := ((hb 2).conditional (by omega)).expr, conditional := fun _ => (hb 2).conditional (by omega),
    binary := fun _ => hb 12, unary := fun _ => h, suffixed := by omega, primary := by omega }

theorem ofSuffixed (h : ReadsSuffixed s ws e) (hb : Begins operandKinds ws) : ReadsUpTo s ws e 13 :=
  have hu := ofUnary (h.unary hb) hb.length_pos
  { expr := hu.expr, conditional := fun _ => hu.conditional (by omega),
    binary := fun _ => (h.unary hb).binary hb.length_pos 13, unary := fun _ => h.unary hb,
    suffixed := fun _ => h, primary := by omega }

theorem ofPrimary (h : ReadsPrimary s ws e) (hb : Begins operandKinds ws) : ReadsUpTo s ws e 14 :=
  have hs := ofSuffixed h.suffixed hb
  { expr := hs.expr, conditional := fun _ => hs.conditional (by omega),
    binary := fun _ => (h.suffixed.unary hb).binary hb.length_pos 14,
    unary := fun _ => hs.unary (by omega), suffixed := fun _ => h.suffixed, primary := fun _ => h }

theorem mono (h : ReadsUpTo s ws e level) (hl : level' ≤ level) : ReadsUpTo s ws e level' :=
  { expr := h.expr, conditional := fun h1 => h.conditional (h1.trans hl),
    binary := fun h2 => (h.binary (h2.trans hl)).mono hl, unary := fun hu => h.unary (hu.trans hl),
    suffixed := fun hs => h.suffixed (hs.trans hl), primary := fun hp => h.primary (hp.trans hl) }

theorem bracket (h : ReadsUpTo s ws e level) (least : Nat) (hl : least ≤ 14) :
    ReadsUpTo s (Expr.bracket least level ws) e least := by
  unfold Expr.bracket
  split
  · exact (ofPrimary h.expr.inParens (.cons (by decide))).mono hl
  · exact h.mono (by omega)

end ReadsUpTo

/-! ## Expressions -/

/-! ### Literals -/

theorem takes_number {w : Token} (h : SpellsNumber x w) :
    Takes s component [w] F (· = x) ∧ Takes s component [Symbol.minus.token, w] F (· = x.neg) := by
  constructor
  · rw [component]
    refine .acceptNo (fun _ _ => by cases h <;> simp) (.peek fun t ht htext => ?_)
    cases h with
    | int hv | float hv =>
      simp only [Token.word_kind, Token.word_text] at ht htext
      simp only [ht, htext, hv, map_some]
      exact .next fun _ _ _ => .pure rfl
  · rw [component]
    refine .acceptYes rfl (.peek fun t ht htext => ?_)
    cases h with
    | int hv | float hv =>
      simp only [Token.word_kind, Token.word_text] at ht htext
      simp only [ht, htext, hv, map_some]
      exact .next fun _ _ _ => .pure rfl

theorem takes_component (h : SpellsComponent x ws) : Takes s component ws F (· = x) := by
  cases h with
  | plain h => exact (takes_number h).1
  | negated h => exact (takes_number h).2

theorem firstKind_component_ne (h : SpellsComponent x ws) (k : TokenKind) :
    firstKind ws k ≠ .symbol .rightBracket := by
  rcases h with h | h
  · cases h <;> simp
  · simp

theorem takes_noComponents (first : Bool) (slots : Nat) :
    Takes s (components first slots) [] (· = .symbol .rightBracket) (· = []) := by
  have hstop : Takes s (componentFollows first) [] (· = .symbol .rightBracket) (· = false) := by
    rw [componentFollows]
    refine .peekKind fun k hk => ?_
    rw [firstKind_nil, if_pos hk]
    exact .pure rfl
  cases slots with
  | zero | succ slots =>
    rw [components]
    refine hstop.last (fun _ hk => hk) fun found hfound => ?_
    rw [hfound, if_neg Bool.false_ne_true]
    exact .pure rfl

theorem takes_moreComponents {xs : List Single} {wss : List (List Token)}
    (h : List.Forall₂ SpellsComponent xs wss) {slots : Nat} (hlen : xs.length ≤ slots) :
    Takes s (components false slots) (wss.flatMap (Symbol.comma.token :: ·))
      (· = .symbol .rightBracket) (· = xs) := by
  induction h generalizing slots with
  | nil => exact takes_noComponents false slots
  | @cons x ws xs wss hx _ ih =>
    rw [length_cons] at hlen
    obtain ⟨slots, rfl⟩ : ∃ k, slots = k + 1 := ⟨slots - 1, by omega⟩
    have hcomma {F : TokenKind → Prop} :
        Takes s (componentFollows false) [Symbol.comma.token] F (· = true) := by
      rw [componentFollows]
      refine .peekKind fun _ _ => ?_
      rw [firstKind_cons, if_neg (by decide)]
      exact .symbol fun _ => .pure rfl
    rw [components, flatMap_cons, cons_append]
    refine hcomma.then fun found hfound => ?_
    rw [hfound, if_pos rfl]
    refine (takes_component hx).then fun y hy => ?_
    refine (ih (by omega)).last (fun _ hk => hk) fun ys hys => .pure ?_
    rw [hy, hys]

theorem takes_components {xs : List Single} {wss : List (List Token)}
    (h : List.Forall₂ SpellsComponent xs wss) {slots : Nat} (hlen : xs.length ≤ slots) :
    Takes s (components true slots) (commaSeparated wss) (· = .symbol .rightBracket) (· = xs) := by
  cases h with
  | nil => exact takes_noComponents true slots
  | @cons x ws xs wss hx h =>
    rw [length_cons] at hlen
    obtain ⟨slots, rfl⟩ : ∃ k, slots = k + 1 := ⟨slots - 1, by omega⟩
    have hfirst : Takes s (componentFollows true) [] (· ≠ .symbol .rightBracket) (· = true) := by
      rw [componentFollows]
      refine .peekKind fun k hk => ?_
      rw [firstKind_nil, if_neg hk]
      exact .pure rfl
    rw [components, commaSeparated_cons]
    have hne (k : TokenKind) :
        firstKind (ws ++ wss.flatMap (Symbol.comma.token :: ·)) k ≠ .symbol .rightBracket := by
      rw [firstKind_append]
      exact firstKind_component_ne hx _
    refine hfirst.look (fun k _ => hne k) fun found hfound => ?_
    rw [hfound, if_pos rfl]
    refine (takes_component hx).then fun y hy => ?_
    refine (takes_moreComponents h (by omega)).last (fun _ hk => hk) fun ys hys => .pure ?_
    rw [hy, hys]

theorem reads_literal {value : Value} {node : Node} (h : Spells value ws) :
    ReadsPrimary s ws (.literal node value) := by
  intro n hn
  obtain ⟨n, rfl⟩ : ∃ k, n = k + 1 := ⟨n - 1, by have := h.begins.length_pos; omega⟩
  rw [primary]
  cases h with
  | int hv =>
    refine .peek fun t ht htext => ?_
    simp only [Token.word_kind, Token.word_text] at ht htext
    simp only [ht, htext, hv, leaf]
    exact .next fun _ _ _ => .node fun _ => .pure rfl
  | float hv =>
    refine .peek fun t ht htext => ?_
    simp only [Token.word_kind, Token.word_text] at ht htext
    simp only [ht, htext, hv, leaf]
    exact .next fun _ _ _ => .node fun _ => .pure rfl
  | string hbody =>
    refine .peek fun t ht htext => ?_
    simp only [Token.word_kind, Token.word_text] at ht htext
    simp only [ht, htext, hbody, Literal.stringBody, tail_cons, dropLast_concat, leaf]
    exact .next fun _ _ _ => .node fun _ => .pure rfl
  | objectSelf =>
    refine .peek fun t ht _ => ?_
    simp only [ht, Keyword.token_kind, leaf]
    exact .next fun _ _ _ => .node fun _ => .pure rfl
  | objectInvalid =>
    refine .peek fun t ht _ => ?_
    simp only [ht, Keyword.token_kind, leaf]
    exact .next fun _ _ _ => .node fun _ => .pure rfl
  | vector hlen hxs =>
    refine .peek fun t ht _ => ?_
    simp only [ht, Symbol.token_kind, Parser.vector]
    refine .symbol fun _ => (takes_components hxs hlen).bind (fun _ _ => rfl) fun ys hys => ?_
    rw [hys]
    exact .symbol fun _ => .node fun _ => .pure rfl

/-! ### Operators -/

theorem ReadsSuffixed.step (h : ReadsSuffixed s ws target) (node : Node) (st : Step) :
    ReadsSuffixed s (ws ++ [st.symbol.token]) (.step node st .valueFirst target) := by
  intro n hn
  rw [length_append, length_singleton] at hn ⊢
  obtain ⟨m, hm, hlead⟩ := h n (by omega)
  obtain ⟨m, rfl⟩ : ∃ k, m = k + 1 := ⟨m - 1, by omega⟩
  refine ⟨m, by omega, hlead.trans (fun _ _ => by cases st <;> simp [Step.symbol]) fun x hx => ?_⟩
  rw [suffixes]
  refine .peek fun t ht _ => ?_
  have hs : step? t.kind = some st := by
    rw [ht]
    cases st <;> rfl
  simp only [hs]
  refine .next fun _ _ _ => .node fun _ => .here (suffixes · m) _ ?_
  simp only [Expr.shape, hx]

theorem ReadsSuffixed.field {base : Expr} (h : ReadsSuffixed s ws base) (node : Node) (name : String) :
    ReadsSuffixed s (ws ++ [Symbol.dot.token, nameToken name]) (.field node base name) := by
  intro n hn
  simp only [length_append, length_cons, length_nil] at hn ⊢
  obtain ⟨m, hm, hlead⟩ := h n (by omega)
  obtain ⟨m, rfl⟩ : ∃ k, m = k + 1 := ⟨m - 1, by omega⟩
  refine ⟨m, by omega, hlead.trans (fun _ _ => by simp) fun x hx => ?_⟩
  rw [suffixes]
  refine .peek fun t ht _ => ?_
  simp only [ht, Symbol.token_kind, step?, if_true]
  refine .next fun _ _ _ => .ident fun _ => .node fun _ => .here (suffixes · m) _ ?_
  simp only [Expr.shape, hx]

theorem ReadsUnary.unary {operand : Expr} (h : ReadsUnary s ws operand) (node : Node) (op : UnOp) :
    ReadsUnary s (op.symbol.token :: ws) (.unary node op operand) := by
  intro n hn
  rw [length_cons] at hn
  obtain _ | n := n
  · omega
  rw [Parser.unary]
  refine .peek fun t ht _ => ?_
  have hop : t.kind.unOp? = some op := by
    rw [ht]
    cases op <;> rfl
  simp only [hop]
  refine .next fun _ _ _ => (h n (by omega)).last (fun _ hk => hk) fun x hx => .node fun _ => .pure ?_
  simp only [Expr.shape, hx]

theorem ReadsUnary.step (h : ReadsUnary s ws target) (node : Node) (st : Step) :
    ReadsUnary s (st.symbol.token :: ws) (.step node st .stepFirst target) := by
  intro n hn
  rw [length_cons] at hn
  obtain _ | n := n
  · omega
  rw [Parser.unary]
  refine .peek fun t ht _ => ?_
  have hs : t.kind.unOp? = none ∧ step? t.kind = some st := by
    rw [ht]
    cases st <;> exact ⟨rfl, rfl⟩
  simp only [hs.1, hs.2]
  refine .next fun _ _ _ => (h n (by omega)).last (fun _ hk => hk) fun x hx => .node fun _ => .pure ?_
  simp only [Expr.shape, hx]

theorem ReadsBinary.binary {lhs rhs : Expr} (node : Node) {op : BinOp}
    (hl : ReadsBinary s ws lhs op.level) (hr : ReadsBinary s vs rhs (op.level + 1)) :
    ReadsBinary s (ws ++ op.symbol.token :: vs) (.binary node op lhs rhs) op.level := by
  have hlevel := op.level_eq
  intro power hp n hn
  simp only [length_append, length_cons] at hn ⊢
  obtain ⟨m, hm, hlead⟩ := hl power hp n (by omega)
  obtain ⟨m, rfl⟩ : ∃ k, m = k + 1 := ⟨m - 1, by omega⟩
  refine ⟨m, by omega, hlead.trans (fun _ _ => endsBelow_binOp op) fun x hx => ?_⟩
  rw [binaryTail]
  refine .peekKind fun _ _ => ?_
  have hop : (TokenKind.symbol op.symbol).binOp? = some op := by cases op <;> rfl
  simp only [firstKind_cons, Symbol.token_kind, hop, if_neg (show ¬op.power < power by omega)]
  refine .next fun _ _ _ => ?_
  refine (hr.takes (by omega) (by omega)).last (fun k hk => hlevel ▸ hk) fun y hy => ?_
  refine .node fun _ => .here (binaryTail power · m) _ ?_
  simp only [Expr.shape, hx, hy]

theorem ReadsConditional.conditional {us : List Token} {cond yes no : Expr} (node : Node)
    (hlevel : 2 ≤ level) (hc : ReadsBinary s ws cond level) (hy : ReadsExpr s us yes)
    (hn : ReadsConditional s vs no) :
    ReadsConditional s (ws ++ Symbol.question.token :: (us ++ Symbol.colon.token :: vs))
      (.conditional node cond yes no) := by
  intro n hlen
  simp only [length_append, length_cons] at hlen
  obtain _ | n := n
  · omega
  rw [Parser.conditional]
  refine (hc.takes (by omega) (by omega)).bind (fun _ _ => endsBelow_question) fun x hx => ?_
  refine .peekKind fun _ _ => ?_
  rw [firstKind_cons, Symbol.token_kind, if_pos rfl]
  refine .next fun _ _ _ => (hy n (by omega)).bind (fun _ _ => endsExpr_colon) fun y hy => ?_
  refine .symbol fun _ => (hn n (by omega)).last (fun _ hk => hk) fun z hz => .node fun _ => .pure ?_
  simp only [Expr.shape, hx, hy, hz]

theorem ReadsExpr.assign {value : Expr} {op : Option BinOp} {x : Symbol} (node : Node)
    (hx : assignSymbol? op = some x) (ht : ReadsConditional s ws target) (hv : ReadsExpr s vs value) :
    ReadsExpr s (ws ++ x.token :: vs) (.assign node op target value) := by
  obtain ⟨hassign, hends⟩ := assignment_symbol hx
  intro n hn
  simp only [length_append, length_cons] at hn
  obtain _ | n := n
  · omega
  rw [Parser.expr]
  refine (ht n (by omega)).bind (fun _ _ => hends) fun y hy => .peekKind fun _ _ => ?_
  simp only [firstKind_cons, Symbol.token_kind, hassign]
  refine .next fun _ _ _ => (hv n (by omega)).last (fun _ hk => hk) fun z hz => .node fun _ => .pure ?_
  simp only [Expr.shape, hy, hz]

/-! ### Calls -/

theorem takes_argumentList {f : Expr → List Token} {args : List Expr} (hne : args ≠ [])
    (h : ∀ x ∈ args, ReadsExpr s (f x) x) {n : Nat}
    (hn : 8 * (commaSeparated (args.map f)).length + 5 ≤ n) :
    Takes s (argumentList n) (commaSeparated (args.map f) ++ [Symbol.rightParen.token]) F
      (·.map Expr.shape = args.map Expr.shape) := by
  induction args generalizing n with
  | nil => exact absurd rfl hne
  | cons x args ih =>
    obtain _ | n := n
    · omega
    have hx := h x (.head _)
    rw [argumentList]
    cases args with
    | nil =>
      rw [map_cons, map_nil, commaSeparated] at hn ⊢
      refine (hx n (by omega)).bind (fun _ _ => endsExpr_rightParen) fun y hy => ?_
      refine .acceptNo (fun _ _ => by simp) ?_
      rw [if_neg Bool.false_ne_true]
      exact .symbol fun _ => .pure (by simp [hy])
    | cons x' args =>
      rw [map_cons, map_cons, commaSeparated, ← map_cons] at hn ⊢
      simp only [length_append, length_cons] at hn
      rw [append_assoc, cons_append]
      refine (hx n (by omega)).bind (fun _ _ => endsExpr_comma) fun y hy => .acceptYes rfl ?_
      rw [if_pos rfl]
      refine (ih (by simp) (fun z hz => h z (.tail _ hz)) (by omega)).last (fun _ hk => hk)
        fun ys hys => .pure ?_
      rw [map_cons, hy, hys, ← map_cons]

theorem reads_call {f : Expr → List Token} {args : List Expr} (node : Node) (name : String)
    (h : ∀ x ∈ args, ReadsExpr s (f x) x) (hb : ∀ x ∈ args, Begins exprKinds (f x)) :
    ReadsPrimary s (nameToken name :: inParens (commaSeparated (args.map f)))
      (.call node name args) := by
  intro n hn
  simp only [inParens, length_cons, length_append, length_nil] at hn
  obtain ⟨n, rfl⟩ : ∃ k, n = k + 1 + 1 := ⟨n - 2, by omega⟩
  rw [primary, inParens]
  refine .peek fun t ht htext => ?_
  rw [nameToken_kind] at ht
  rw [nameToken_text] at htext
  simp only [ht, htext]
  refine .peekSecond fun t' _ _ ht' => ?_
  rw [ht', firstKind_cons, Symbol.token_kind, if_pos rfl]
  refine .next fun _ _ _ => .symbol fun _ => ?_
  have hargs : Takes s (arguments (n + 1))
      (commaSeparated (args.map f) ++ [Symbol.rightParen.token]) (· ≠ .symbol .leftParen)
      (·.map Expr.shape = args.map Expr.shape) := by
    rw [arguments]
    cases args with
    | nil =>
      refine .acceptYes rfl ?_
      rw [if_pos rfl]
      exact .pure rfl
    | cons x args =>
      refine .acceptNo (fun k _ => ?_) ?_
      · rw [map_cons, commaSeparated_cons, append_assoc]
        exact ((hb x (.head _)).append _).firstKind_ne (by decide) k
      rw [if_neg Bool.false_ne_true]
      exact takes_argumentList (by simp) h (by omega)
  refine hargs.last (fun _ hk => hk) fun xs hxs => .node fun _ => .pure ?_
  simp only [Expr.shape, Expr.shapeAll_eq_map, hxs]

theorem reads_ident (node : Node) (name : String) : ReadsPrimary s [nameToken name] (.ident node name) := by
  intro n hn
  obtain ⟨n, rfl⟩ : ∃ k, n = k + 1 := ⟨n - 1, by rw [length_singleton] at hn; omega⟩
  rw [primary]
  refine .peek fun t ht htext => ?_
  rw [nameToken_kind] at ht
  rw [nameToken_text] at htext
  simp only [ht, htext]
  refine .peekSecond fun t' k hk ht' => ?_
  rw [ht', firstKind_nil, if_neg hk]
  exact .next fun _ _ _ => .node fun _ => .pure rfl

/-! ### All expressions -/

theorem reads_print {spell : NodeId → List Token} (he : e.Writable spell) :
    ReadsUpTo s (e.print spell) e e.level := by
  induction e using Expr.inductionOn with
  | literal node value => exact .ofPrimary (reads_literal he.root) he.root.begins
  | ident node name => exact .ofPrimary (reads_ident node name) (he.begins_operand (by simp [Expr.level]))
  | binary node op lhs rhs ihl ihr =>
    have hlevel := op.level_lt
    have hl := (ihl (he.child (by simp))).bracket op.level (by omega)
    have hr := (ihr (he.child (by simp))).bracket (op.level + 1) (by omega)
    have hop := op.one_lt_level
    rw [Expr.print]
    exact .ofBinary (.binary node (hl.binary hop) (hr.binary (by omega))) hop hlevel
  | unary node op operand ih =>
    have h := (ih (he.child (by simp))).bracket 12 (by omega)
    rw [Expr.print]
    exact .ofUnary ((h.unary le_rfl).unary node op) (Nat.succ_pos _)
  | step node st order target ih =>
    have hc := ih (he.child (by simp))
    have hb := he.begins_operand
    cases order with
    | stepFirst =>
      rw [Expr.print]
      exact .ofUnary (((hc.bracket 12 (by omega)).unary le_rfl).step node st) (Nat.succ_pos _)
    | valueFirst =>
      rw [Expr.print] at hb ⊢
      exact .ofSuffixed (((hc.bracket 13 (by omega)).suffixed le_rfl).step node st) (hb le_rfl)
  | call node name args ih =>
    have hb := he.begins_operand
    rw [Expr.print, Expr.printAll_eq_map] at hb ⊢
    refine .ofPrimary (reads_call node name (fun x hx => ?_) fun x hx => ?_) (hb (by simp [Expr.level]))
    · exact (ih x hx (he.child hx)).expr
    · exact (he.child (e := .call node name args) hx).begins
  | assign node op target value iht ihv =>
    obtain ⟨x, hx⟩ := isSome_iff_exists.mp he.root
    have ht := (iht (he.child (by simp))).bracket 1 (by omega)
    have hv := (ihv (he.child (by simp))).bracket 0 (by omega)
    rw [Expr.print, hx]
    exact .ofExpr (.assign node hx (ht.conditional le_rfl) hv.expr)
  | field node base name ih =>
    have h := (ih (he.child (by simp))).bracket 13 (by omega)
    have hb := he.begins_operand le_rfl
    rw [Expr.print] at hb ⊢
    exact .ofSuffixed ((h.suffixed le_rfl).field node name) hb
  | conditional node cond yes no ihc ihy ihn =>
    have hc := (ihc (he.child (by simp))).bracket 2 (by omega)
    have hy := (ihy (he.child (by simp))).bracket 0 (by omega)
    have hn := (ihn (he.child (by simp))).bracket 1 (by omega)
    rw [Expr.print]
    exact .ofConditional
      (.conditional node le_rfl (hc.binary le_rfl) hy.expr (hn.conditional le_rfl))

/-- An expression that is written with the fewest parentheses, before a token that cannot go on with
it, is read as itself up to numbers and places, and no token behind it is read. -/
theorem expr_reads_print (spell : NodeId → List Token) (e : Expr) (he : e.Writable spell)
    {ts rest : List Token} (hts : ts.map Token.bare = e.print spell) {s : ParserState}
    (hs : s.stream.rest = ts ++ rest) (hrest : EndsExpr (s.ahead rest)) {n : Nat}
    (hn : parseSteps ts ≤ n) : ∃ e' id, expr n s = .ok e' (s.facing rest id) ∧ e'.shape = e.shape := by
  have hlen : ts.length = (e.print spell).length := by rw [← hts, length_map]
  have hstart : s = s.facing (ts ++ rest) s.nextId := by rw [← hs]; rfl
  rw [parseSteps] at hn
  obtain ⟨e', id, hread, hshape⟩ :=
    (reads_print he).expr n (by omega) ts rest s.nextId hts hrest
  exact ⟨e', id, by rw [← hstart] at hread; exact hread, hshape⟩

theorem expr_reads_print_sum :
    let ts := [nameToken "x", Symbol.plusEq.token, Symbol.leftParen.token, nameToken "a",
      Symbol.plus.token, nameToken "b", Symbol.rightParen.token, Symbol.star.token,
      Token.word .intLit "2"]
    let s : ParserState := { stream := ⟨ts ++ [Symbol.semicolon.token], endToken⟩ }
    EndsExpr (s.ahead [Symbol.semicolon.token]) ∧
    ∃ e' id, expr (parseSteps ts) s = .ok e' (s.facing [Symbol.semicolon.token] id) ∧
      e'.shape = .assign .none (some .add) (.ident .none "x")
        (.binary .none .mul (.binary .none .add (.ident .none "a") (.ident .none "b"))
          (.literal .none (.int 2))) := by
  have two : Spells (.int 2) [Token.word .intLit "2"] := .int (by decide)
  refine ⟨by decide, expr_reads_print (fun _ => [.word .intLit "2"])
    (.assign .none (some .add) (.ident .none "x")
      (.binary .none .mul (.binary .none .add (.ident .none "a") (.ident .none "b"))
        (.literal .none (.int 2)))) ?_ rfl rfl (by decide) le_rfl⟩
  simp [Expr.Writable, Expr.parts, Expr.RootWritable, assignSymbol?, two]

end Parser

end Nwscript
