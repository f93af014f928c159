import Nwscript.Proofs.Print.Expr

/-! # Written statements are read back

A statement is told by its first token, a declaration from an expression by its first two. An else
belongs to the nearest if, so a statement that ends in an if without one may stand anywhere but before
an else. -/

open List

namespace Nwscript

/-! ## First tokens -/

def typeKinds : List TokenKind :=
  [.keyword .kwVoid, .keyword .kwInt, .keyword .kwFloat, .keyword .kwString, .keyword .kwObject,
    .keyword .kwVector, .keyword .kwAction, .keyword .kwStruct, .ident]

def stmtKinds : List TokenKind :=
  exprKinds ++ typeKinds ++
    [.symbol .leftBrace, .symbol .semicolon, .keyword .kwIf, .keyword .kwWhile, .keyword .kwDo,
      .keyword .kwFor, .keyword .kwSwitch, .keyword .kwCase, .keyword .kwDefault, .keyword .kwReturn,
      .keyword .kwBreak, .keyword .kwContinue]

theorem TypeSpec.begins (type : TypeSpec) : Begins typeKinds type.print := by
  cases type <;> exact .cons (by simp [typeKinds])

variable {st : Stmt} {e : Expr}

theorem Stmt.Writable.begins {types : List String} {spell : NodeId → List Token}
    (h : st.Writable types spell) : Begins stmtKinds (st.print spell) := by
  cases st with
  | var pos decl =>
    rw [Stmt.print, VarDecl.print, h.1]
    exact (decl.type.begins.append _).mono (by decide)
  | expr pos e =>
    rw [Stmt.Writable] at h
    rw [Stmt.print]
    exact (h.begins.append _).mono (by decide)
  | _ =>
    rw [Stmt.print]
    exact .cons (by decide)

def LoneName (ws : List Token) : Prop :=
  ∀ w vs, ws = w :: vs → w.kind = .ident → ∀ k, k ≠ .ident → firstKind vs k ≠ .ident

namespace LoneName

variable {ws vs : List Token} {w : Token}

theorem cons_ne (h : w.kind ≠ .ident) : LoneName (w :: ws) := by
  rintro _ _ ⟨⟩ hw
  exact absurd hw h

theorem append (h : LoneName ws) (hne : 0 < ws.length) (hw : w.kind ≠ .ident) :
    LoneName (ws ++ w :: vs) := by
  cases ws with
  | nil => cases hne
  | cons w' ws =>
    rw [cons_append]
    rintro _ _ ⟨⟩ hw' k _
    rw [firstKind_append]
    exact h w' ws rfl hw' _ hw

end LoneName

theorem Spells.loneName {value : Value} {ws : List Token} (h : Spells value ws) : LoneName ws := by
  cases h <;> exact .cons_ne (by simp)

theorem Expr.Writable.loneName {spell : NodeId → List Token} (he : e.Writable spell) :
    LoneName (e.print spell) := by
  have hbracket {e : Expr} (least : Nat) (h : LoneName (e.print spell)) :
      LoneName (Expr.bracket least e.level (e.print spell)) := by
    unfold Expr.bracket
    split
    · exact .cons_ne (by simp)
    · exact h
  have hpos {e : Expr} (he : e.Writable spell) (least : Nat) :
      0 < (Expr.bracket least e.level (e.print spell)).length :=
    (Expr.begins_bracket (by decide) fun _ => he.begins).length_pos
  induction e using Expr.inductionOn with
  | literal node value =>
    rw [Expr.print]
    exact Spells.loneName he.root
  | ident node name =>
    rw [Expr.print]
    rintro _ _ ⟨⟩ _ k hk
    exact hk
  | call node name args _ =>
    rw [Expr.print]
    rintro _ _ ⟨⟩ _ k _
    simp [inParens]
  | unary node op operand _ =>
    rw [Expr.print]
    exact .cons_ne (by simp)
  | step node st order target ih =>
    have hc := he.child (c := target) (by simp)
    cases order with
    | stepFirst =>
      rw [Expr.print]
      exact .cons_ne (by simp)
    | valueFirst =>
      rw [Expr.print]
      exact (hbracket 13 (ih hc)).append (hpos hc 13) (by simp)
  | binary node op target rhs ih _ | assign node op target rhs ih _ | field node target name ih
  | conditional node target yes no ih _ _ =>
    have hc := he.child (c := target) (by simp)
    rw [Expr.print]
    exact (hbracket _ (ih hc)).append (hpos hc _) (by simp)

namespace Parser

variable {s : ParserState} {spell : NodeId → List Token}

/-! ## Declarations -/

variable {F : TokenKind → Prop} {n : Nat} {decl : VarDecl} {body : List Stmt}

theorem takes_typeSpec {type : TypeSpec} (h : type.Known s.engineTypes) :
    Takes s typeSpec type.print F (· = type) := by
  rw [typeSpec]
  cases type with
  | struct name =>
    refine .peek fun t ht _ => ?_
    simp only [ht, Keyword.token_kind]
    exact .next fun _ _ _ => .ident fun _ => .pure rfl
  | engine name =>
    refine .peek fun t ht htext => ?_
    rw [nameToken_kind] at ht
    rw [nameToken_text] at htext
    simp only [ht, htext]
    refine .isEngineType ?_
    rw [if_pos (contains_iff_mem.mpr h)]
    exact .next fun _ _ _ => .pure rfl
  | _ =>
    refine .peek fun t ht _ => ?_
    simp only [ht, Keyword.token_kind, keywordType?]
    exact .next fun _ _ _ => .pure rfl

theorem endsExpr_semicolon : EndsExpr (.symbol .semicolon) := by decide

def initEnds : List TokenKind := [.symbol .semicolon, .symbol .comma, .symbol .rightParen]

theorem endsExpr_of_mem_initEnds {k : TokenKind} (hk : k ∈ initEnds) : EndsExpr k := by
  revert k
  decide

theorem takes_afterEquals {p : Parser Expr} {e : Option Expr} {least : Nat}
    (hp : ∀ x ∈ e, Takes s p (x.printAt spell least) EndsExpr (·.shape = x.shape)) :
    Takes s (afterEquals p) (printInit spell least e) (· ∈ initEnds)
      (·.map Expr.shape = e.map Expr.shape) := by
  rw [afterEquals, acceptSymbol]
  cases e with
  | none =>
    refine .acceptNo (fun k hk => ?_) ?_
    · rintro rfl
      exact absurd hk (by decide)
    rw [if_neg Bool.false_ne_true]
    exact .pure rfl
  | some x =>
    refine .acceptYes rfl ?_
    rw [if_pos rfl, map_eq_pure_bind]
    refine (hp x rfl).last (fun _ hk => endsExpr_of_mem_initEnds hk) fun y hy => .pure ?_
    rw [Option.map_some, hy, Option.map_some]

theorem takes_optionalExpr {e : Option Expr} {x : Symbol} (hx : .symbol x ∉ exprKinds)
    (hends : EndsExpr (.symbol x)) (he : ∀ y ∈ e, y.Writable spell)
    (hn : 8 * (printOptional spell e).length + 4 ≤ n) :
    Takes s (optionalExpr x n) (printOptional spell e) (· = .symbol x)
      (·.map Expr.shape = e.map Expr.shape) := by
  rw [optionalExpr]
  refine .peekKind fun k hk => ?_
  cases e with
  | none =>
    rw [printOptional, firstKind_nil, if_pos hk]
    exact .pure rfl
  | some y =>
    rw [printOptional] at hn ⊢
    rw [if_neg ((he y rfl).begins.firstKind_ne hx k)]
    refine ((reads_print (he y rfl)).expr n hn).last (fun k hk => hk ▸ hends) fun z hz => .pure ?_
    rw [Option.map_some, hz, Option.map_some]

theorem takes_parenExpr (he : e.Writable spell) (hn : 8 * (e.print spell).length + 4 ≤ n) :
    Takes s (parenExpr n) (inParens (e.print spell)) F (·.shape = e.shape) := by
  rw [parenExpr, inParens]
  refine .symbol fun _ => ?_
  refine ((reads_print he).expr n hn).bind (fun _ _ => endsExpr_rightParen) fun x hx => ?_
  exact .symbol fun _ => .pure hx

theorem takes_declarators {d : Declarator} {ds : List Declarator}
    (he : ∀ v ∈ d :: ds, ∀ e ∈ v.init, e.Writable spell) (pos : Pos)
    (hn : 8 * (printInit spell 0 d.init ++
      (ds.map (Declarator.print spell)).flatMap (Symbol.comma.token :: ·)).length + 1 ≤ n) :
    Takes s (declarators d.name pos n)
      (printInit spell 0 d.init ++ (ds.map (Declarator.print spell)).flatMap (Symbol.comma.token :: ·))
      (· = .symbol .semicolon) (·.map Declarator.shape = (d :: ds).map Declarator.shape) := by
  have hinit {d : Declarator} (hd : ∀ e ∈ d.init, e.Writable spell) {n : Nat}
      (hn : 8 * (printInit spell 0 d.init).length ≤ n) :
      Takes s (afterEquals (expr n)) (printInit spell 0 d.init) (· ∈ initEnds)
        (·.map Expr.shape = d.init.map Expr.shape) := by
    refine takes_afterEquals fun x hx => ?_
    rw [hx, printInit, length_cons, Expr.printAt_zero] at hn
    rw [Expr.printAt_zero]
    exact (reads_print (hd x hx)).expr n (by omega)
  induction ds generalizing d pos n with
  | nil =>
    obtain _ | n := n
    · omega
    rw [map_nil, flatMap_nil, append_nil] at hn ⊢
    rw [declarators]
    refine (hinit (he d (by simp)) (by omega)).last (fun _ hk => by simp [hk, initEnds])
      fun init hi => ?_
    refine .node fun _ => .acceptNo (fun k hk => by simp [hk]) ?_
    rw [if_neg Bool.false_ne_true]
    exact .pure (by simp [Declarator.shape, hi])
  | cons d' ds ih =>
    obtain _ | n := n
    · omega
    rw [map_cons, flatMap_cons, Declarator.print, cons_append, cons_append] at hn ⊢
    simp only [length_append, length_cons] at hn
    rw [declarators]
    refine (hinit (he d (by simp)) (by omega)).bind (fun _ _ => by simp [initEnds]) fun init hi => ?_
    refine .node fun _ => .acceptYes rfl ?_
    rw [if_pos rfl]
    refine .ident fun pos' => ?_
    refine (ih (fun v hv => he v (.tail _ hv)) pos' (by rw [length_append]; omega)).last
      (fun _ hk => hk) fun vars hvars => .pure ?_
    rw [map_cons, hvars, map_cons]
    simp [Declarator.shape, hi]

def varTail (spell : NodeId → List Token) (d : Declarator) (ds : List Declarator) : List Token :=
  printInit spell 0 d.init ++
    (ds.map (Declarator.print spell)).flatMap (Symbol.comma.token :: ·) ++ [Symbol.semicolon.token]

theorem declarators_print (d : Declarator) (ds : List Declarator) :
    commaSeparated ((d :: ds).map (Declarator.print spell)) ++ [Symbol.semicolon.token] =
      nameToken d.name :: varTail spell d ds := by
  rw [map_cons, commaSeparated_cons, Declarator.print, cons_append, cons_append, varTail]

theorem takes_varDecl {d : Declarator} {ds : List Declarator}
    (he : ∀ v ∈ d :: ds, ∀ e ∈ v.init, e.Writable spell) (pos pos' : Pos) (isConst : Bool)
    (type : TypeSpec) (hn : 8 * (varTail spell d ds).length ≤ n) :
    Takes s (varDecl pos isConst type (d.name, pos') n) (varTail spell d ds) F
      (·.shape = ({ pos := {}, isConst, type, vars := d :: ds } : VarDecl).shape) := by
  rw [varTail, length_append, length_singleton] at hn
  rw [varDecl, varTail]
  refine (takes_declarators he pos' (by omega)).bind (fun _ _ => rfl) fun vars hvars => ?_
  exact .symbol fun _ => .pure (by simp [VarDecl.shape, hvars])

theorem takes_localDecl (hc : decl.isConst = false) (h : decl.Writable s.engineTypes spell)
    (pos : Pos) (hn : 8 * (decl.print spell).length ≤ n + 1) :
    Takes s (localDecl pos n) (decl.print spell) F (·.shape = decl.shape) := by
  obtain ⟨pos', isConst, type, vars⟩ := decl
  obtain ⟨d, ds, rfl⟩ := exists_cons_of_ne_nil h.vars
  obtain rfl : isConst = false := hc
  simp only [VarDecl.print, declarators_print, Bool.false_eq_true, if_false, nil_append] at hn ⊢
  simp only [length_append, length_cons] at hn
  rw [localDecl]
  refine (takes_typeSpec h.type).then fun type' htype => ?_
  refine .ident fun pos'' => ?_
  rw [htype]
  exact (takes_varDecl h.init pos pos'' false type (by omega)).weaken (fun _ hk => hk) fun _ hd => hd

section Lookahead

variable {β γ : Type} {k : Bool → Parser β} {ws : List Token} {F : TokenKind → Prop} {q : γ → Parser β}
  {R : γ → Prop}

theorem Leads.atType_declaration {type : TypeSpec} {name : String} (hn : type.Known s.engineTypes)
    (h : Leads s (k true) (type.print ++ nameToken name :: ws) F q R) :
    Leads s (atType >>= k) (type.print ++ nameToken name :: ws) F q R := by
  rw [atType, bind_assoc]
  cases type with
  | engine name' =>
    refine .peek fun t ht htext => ?_
    rw [nameToken_kind] at ht
    rw [nameToken_text] at htext
    simp only [ht, htext, bind_assoc, pure_bind]
    refine .isEngineType (.peekSecond fun t' _ _ ht' => ?_)
    rw [contains_iff_mem.mpr hn, ht']
    exact h
  | _ =>
    refine .peek fun t ht _ => ?_
    simp only [ht, Keyword.token_kind, pure_bind]
    exact h

theorem not_isType_of_mem_exprKinds {word : Keyword} (h : .keyword word ∈ exprKinds) :
    word.isType = false := by
  revert h
  cases word <;> decide

theorem Leads.atType_expr {us : List Token} {w : Token} (hb : Begins exprKinds us) (hl : LoneName us)
    (hw : w.kind ≠ .ident) (h : Leads s (k false) (us ++ w :: ws) F q R) :
    Leads s (atType >>= k) (us ++ w :: ws) F q R := by
  obtain ⟨u, us, rfl, hu⟩ := hb
  rw [cons_append] at h ⊢
  rw [atType, bind_assoc]
  refine .peek fun t ht htext => ?_
  cases hk : t.kind with
  | ident =>
    simp only [bind_assoc, pure_bind]
    refine .isEngineType (.peekSecond fun t' x hx ht' => ?_)
    have hne : (t'.kind == .ident) = false := by
      rw [ht', beq_eq_false_iff_ne, firstKind_append]
      exact hl u us rfl (ht.symm.trans hk) _ hw
    rw [hne, Bool.and_false]
    exact h
  | keyword word =>
    have hword : word.isType = false := not_isType_of_mem_exprKinds (by rwa [← hk, ht])
    simp only [hword, pure_bind]
    exact h
  | _ =>
    simp only [pure_bind]
    exact h

end Lookahead

/-! ## Statements -/

theorem takes_conditional (h : e.Writable spell) (hn : 8 * (e.printAt spell 1).length + 3 ≤ n) :
    Takes s (conditional n) (e.printAt spell 1) EndsConditional (·.shape = e.shape) :=
  ((reads_print h).bracket 1 (by omega)).conditional le_rfl n hn

theorem takes_caseLabel {label : Expr} (h : label.Writable spell) (pos : Pos)
    (hn : 8 * (label.printAt spell 1).length + 3 ≤ n) :
    Takes s (caseLabel pos n) (label.printAt spell 1 ++ [Symbol.colon.token]) F
      (·.shape = .caseLabel {} label.shape) := by
  rw [caseLabel]
  refine (takes_conditional h hn).bind (fun _ _ => endsExpr_colon.conditional_assignment.1)
    fun x hx => ?_
  exact .symbol fun _ => .pure (by rw [Stmt.shape, hx])

theorem takes_returnStmt {value : Option Expr} (h : ∀ e ∈ value, e.Writable spell) (pos : Pos)
    (hn : 8 * (printOptional spell value).length + 4 ≤ n) :
    Takes s (returnStmt pos n) (printOptional spell value ++ [Symbol.semicolon.token]) F
      (·.shape = .ret {} (value.map Expr.shape)) := by
  rw [returnStmt]
  refine (takes_optionalExpr (by decide) endsExpr_semicolon h hn).bind (fun _ _ => rfl) fun x hx => ?_
  exact .symbol fun _ => .pure (by rw [Stmt.shape, hx])

theorem takes_exprStmt (h : e.Writable spell) (pos : Pos) (hn : 8 * (e.print spell).length + 4 ≤ n) :
    Takes s (simpleStmt pos n) (e.print spell ++ [Symbol.semicolon.token]) F
      (·.shape = .expr {} e.shape) := by
  rw [simpleStmt]
  refine .atType_expr h.begins h.loneName (by simp) ?_
  rw [if_neg Bool.false_ne_true]
  refine ((reads_print h).expr n hn).bind (fun _ _ => endsExpr_semicolon) fun x hx => ?_
  exact .symbol fun _ => .pure (by rw [Stmt.shape, hx])

theorem takes_varStmt (hc : decl.isConst = false) (h : decl.Writable s.engineTypes spell)
    (pos : Pos) (hn : 8 * (decl.print spell).length ≤ n + 1) :
    Takes s (simpleStmt pos n) (decl.print spell) F (·.shape = .var {} decl.shape) := by
  have hdecl := takes_localDecl hc h pos hn (F := F)
  obtain ⟨d, ds, hvars⟩ := exists_cons_of_ne_nil h.vars
  rw [VarDecl.print, hc, if_neg Bool.false_ne_true, nil_append, hvars, declarators_print] at hdecl ⊢
  rw [simpleStmt]
  refine .atType_declaration h.type ?_
  rw [if_pos rfl]
  exact hdecl.last (fun _ hk => hk) fun x hx => .pure (by rw [Stmt.shape, hx])

theorem takes_forHead {init cond next : Option Expr} (hi : ∀ e ∈ init, e.Writable spell)
    (hc : ∀ e ∈ cond, e.Writable spell) (hx : ∀ e ∈ next, e.Writable spell)
    (hn : 8 * (printOptional spell init ++ Symbol.semicolon.token :: (printOptional spell cond ++
      Symbol.semicolon.token :: printOptional spell next)).length ≤ n) :
    Takes s (forHead n) (inParens (printOptional spell init ++ Symbol.semicolon.token ::
        (printOptional spell cond ++ Symbol.semicolon.token :: printOptional spell next))) F
      fun head => head.1.map Expr.shape = init.map Expr.shape ∧
        head.2.1.map Expr.shape = cond.map Expr.shape ∧
        head.2.2.map Expr.shape = next.map Expr.shape := by
  simp only [length_append, length_cons] at hn
  rw [forHead, inParens, append_assoc, cons_append, append_assoc, cons_append]
  refine .symbol fun _ => ?_
  refine (takes_optionalExpr (by decide) endsExpr_semicolon hi (by omega)).bind (fun _ _ => rfl)
    fun x hx1 => .symbol fun _ => ?_
  refine (takes_optionalExpr (by decide) endsExpr_semicolon hc (by omega)).bind (fun _ _ => rfl)
    fun y hy => .symbol fun _ => ?_
  refine (takes_optionalExpr (by decide) endsExpr_rightParen hx (by omega)).bind (fun _ _ => rfl)
    fun z hz => .symbol fun _ => .pure ⟨hx1, hy, hz⟩

def ReadsStmt (s : ParserState) (spell : NodeId → List Token) (st : Stmt) : Prop :=
  ∀ n, 8 * (st.print spell).length ≤ n →
    Takes s (stmt n) (st.print spell) (fun k => st.endsOpen = true → k ≠ .keyword .kwElse)
      (·.shape = st.shape)

theorem ReadsStmt.takes (h : ReadsStmt s spell st) (hn : 8 * (st.print spell).length ≤ n) :
    Takes s (stmt n) (st.print spell) (· ≠ .keyword .kwElse) (·.shape = st.shape) :=
  (h n hn).weaken (fun _ hk _ => hk) fun _ hx => hx

theorem firstKind_block_ne (hb : ∀ st ∈ body, Begins stmtKinds (st.print spell)) (k : TokenKind) :
    firstKind (Stmt.printAll spell body ++ [Symbol.rightBrace.token]) k ≠ .keyword .kwElse := by
  cases body with
  | nil => simp [Stmt.printAll]
  | cons st body =>
    rw [Stmt.printAll, append_assoc]
    exact ((hb st (.head _)).append _).firstKind_ne (by decide) k

theorem takes_blockRest (h : ∀ st ∈ body, ReadsStmt s spell st)
    (hb : ∀ st ∈ body, Begins stmtKinds (st.print spell))
    (hn : 8 * (Stmt.printAll spell body).length + 1 ≤ n) :
    Takes s (blockRest n) (Stmt.printAll spell body ++ [Symbol.rightBrace.token]) F
      (·.map Stmt.shape = body.map Stmt.shape) := by
  induction body generalizing n with
  | nil =>
    obtain _ | n := n
    · omega
    rw [blockRest]
    refine .peekKind fun _ _ => ?_
    exact .next fun _ _ _ => .pure rfl
  | cons st body ih =>
    obtain _ | n := n
    · omega
    have hst := hb st (.head _)
    have hpos := hst.length_pos
    have hb' : ∀ st ∈ body, Begins stmtKinds (st.print spell) := fun x hx => hb x (.tail _ hx)
    rw [Stmt.printAll, length_append] at hn
    rw [Stmt.printAll, append_assoc, blockRest]
    refine .peekKind fun k _ => ?_
    have hkind := (hst.append (Stmt.printAll spell body ++ [Symbol.rightBrace.token])).firstKind_mem k
    split
    · rename_i hk
      rw [hk] at hkind
      exact absurd hkind (by decide)
    · rename_i hk
      rw [hk] at hkind
      exact absurd hkind (by decide)
    · have hread := (h st (.head _)).takes (n := n) (by omega)
      refine (hread.recovering false).bind (fun k _ => firstKind_block_ne hb' k) ?_
      rintro _ ⟨x, rfl, hx⟩
      refine (ih (fun x hx => h x (.tail _ hx)) hb' (by omega)).last (fun _ hk => hk) fun xs hxs => ?_
      refine .pure ?_
      rw [Option.toList_some, singleton_append, map_cons, hx, hxs, map_cons]

theorem takes_block (h : ∀ st ∈ body, ReadsStmt s spell st)
    (hb : ∀ st ∈ body, Begins stmtKinds (st.print spell))
    (hn : 8 * (Stmt.printAll spell body).length + 2 ≤ n) :
    Takes s (block n) (inBraces (Stmt.printAll spell body)) F
      (·.map Stmt.shape = body.map Stmt.shape) := by
  obtain _ | n := n
  · omega
  rw [block, inBraces]
  exact .symbol fun _ => takes_blockRest h hb (by omega)

theorem Leads.simpleStmt {β : Type} {ws : List Token} {q : β → Parser Stmt} {R : β → Prop}
    (hb : Begins (exprKinds ++ typeKinds) ws)
    (h : ∀ pos, Leads s (Parser.simpleStmt pos n) ws F q R) : Leads s (stmt (n + 1)) ws F q R := by
  obtain ⟨w, ws, rfl, hw⟩ := hb
  rw [stmt]
  refine .peek fun t ht _ => ?_
  rw [← ht] at hw
  generalize t.kind = kind at hw
  fin_cases hw <;> exact h t.pos

namespace ReadsStmt

variable {cond : Expr} {yes no body : Stmt}

theorem var (hc : decl.isConst = false) (h : decl.Writable s.engineTypes spell) (pos : Pos) :
    ReadsStmt s spell (.var pos decl) := by
  intro n hn
  have hb : Begins (exprKinds ++ typeKinds) (decl.print spell) := by
    rw [VarDecl.print, hc]
    exact (decl.type.begins.append _).mono (subset_append_right ..)
  rw [Stmt.print] at hn ⊢
  obtain ⟨n, rfl⟩ : ∃ k, n = k + 1 := ⟨n - 1, by have := hb.length_pos; omega⟩
  rw [Stmt.shape]
  exact .simpleStmt hb fun pos => takes_varStmt hc h pos (by omega)

theorem expr (h : e.Writable spell) (pos : Pos) : ReadsStmt s spell (.expr pos e) := by
  intro n hn
  rw [Stmt.print] at hn ⊢
  rw [length_append, length_singleton] at hn
  obtain _ | n := n
  · omega
  rw [Stmt.shape]
  refine .simpleStmt ?_ fun pos => takes_exprStmt h pos (by omega)
  exact (h.begins.append _).mono (subset_append_left ..)

theorem block {ss : List Stmt} (h : ∀ st ∈ ss, ReadsStmt s spell st)
    (hb : ∀ st ∈ ss, Begins stmtKinds (st.print spell)) (pos : Pos) :
    ReadsStmt s spell (.block pos ss) := by
  intro n hn
  rw [Stmt.print] at hn ⊢
  rw [inBraces, length_cons, length_append, length_singleton] at hn
  obtain _ | n := n
  · omega
  rw [stmt]
  refine .peek fun t ht _ => ?_
  simp only [ht, Symbol.token_kind]
  refine Takes.last (takes_block h hb (by omega)) (fun _ hk => hk) fun xs hxs => .pure ?_
  simp only [Stmt.shape, Stmt.shapeAll_eq_map, hxs]

theorem ifThen (hc : cond.Writable spell) (hy : ReadsStmt s spell yes) (pos : Pos) :
    ReadsStmt s spell (.ifThen pos cond yes) := by
  intro n hn
  rw [Stmt.print] at hn ⊢
  simp only [inParens, length_append, length_cons, length_nil] at hn
  obtain _ | n := n
  · omega
  rw [stmt]
  refine .peek fun t ht _ => ?_
  simp only [ht, Keyword.token_kind]
  refine .next fun _ _ _ => ?_
  refine (takes_parenExpr hc (by omega)).then fun x hx => ?_
  refine (hy.takes (by omega)).last (fun _ hk => hk rfl) fun y hy => ?_
  refine .acceptNo (fun _ hk => hk rfl) ?_
  rw [if_neg Bool.false_ne_true]
  exact .pure (by simp only [Stmt.shape, hx, hy])

theorem ifElse (hc : cond.Writable spell) (hy : ReadsStmt s spell yes) (hclosed : yes.endsOpen = false)
    (hn : ReadsStmt s spell no) (pos : Pos) : ReadsStmt s spell (.ifElse pos cond yes no) := by
  intro n hlen
  rw [Stmt.print] at hlen ⊢
  simp only [inParens, length_append, length_cons, length_nil] at hlen
  obtain _ | n := n
  · omega
  rw [stmt]
  refine .peek fun t ht _ => ?_
  simp only [ht, Keyword.token_kind]
  refine .next fun _ _ _ => ?_
  refine (takes_parenExpr hc (by omega)).then fun x hx => ?_
  refine (hy n (by omega)).bind (fun _ _ ho => absurd ho (by simp [hclosed])) fun y hy => ?_
  refine .acceptYes rfl ?_
  rw [if_pos rfl]
  refine (hn n (by omega)).last (fun _ hk => hk) fun z hz => .pure ?_
  simp only [Stmt.shape, hx, hy, hz]

theorem whileLoop (hc : cond.Writable spell) (hb : ReadsStmt s spell body) (pos : Pos) :
    ReadsStmt s spell (.whileLoop pos cond body) := by
  intro n hn
  rw [Stmt.print] at hn ⊢
  simp only [inParens, length_append, length_cons, length_nil] at hn
  obtain _ | n := n
  · omega
  rw [stmt]
  refine .peek fun t ht _ => ?_
  simp only [ht, Keyword.token_kind]
  refine .next fun _ _ _ => ?_
  refine (takes_parenExpr hc (by omega)).then fun x hx => ?_
  refine (hb n (by omega)).last (fun _ hk => hk) fun y hy => .pure ?_
  simp only [Stmt.shape, hx, hy]

theorem doWhile (hb : ReadsStmt s spell body) (hc : cond.Writable spell) (pos : Pos) :
    ReadsStmt s spell (.doWhile pos body cond) := by
  intro n hn
  rw [Stmt.print] at hn ⊢
  simp only [inParens, length_append, length_cons, length_nil] at hn
  obtain _ | n := n
  · omega
  rw [stmt]
  refine .peek fun t ht _ => ?_
  simp only [ht, Keyword.token_kind]
  refine .next fun _ _ _ => (hb.takes (by omega)).bind (fun _ _ => by simp) fun x hx => ?_
  refine .consume rfl fun _ _ _ => ?_
  refine (takes_parenExpr hc (by omega)).then fun y hy => ?_
  exact .symbol fun _ => .pure (by simp only [Stmt.shape, hx, hy])

theorem forLoop {init cond next : Option Expr} (hi : ∀ e ∈ init, e.Writable spell)
    (hc : ∀ e ∈ cond, e.Writable spell) (hx : ∀ e ∈ next, e.Writable spell)
    (hb : ReadsStmt s spell body) (pos : Pos) :
    ReadsStmt s spell (.forLoop pos init cond next body) := by
  intro n hn
  rw [Stmt.print] at hn ⊢
  rw [inParens, length_cons, length_append, length_cons, length_append, length_singleton] at hn
  obtain _ | n := n
  · omega
  rw [stmt]
  refine .peek fun t ht _ => ?_
  simp only [ht, Keyword.token_kind]
  refine .next fun _ _ _ => ?_
  refine (takes_forHead hi hc hx (by omega)).then ?_
  rintro ⟨x, y, z⟩ ⟨hx, hy, hz⟩
  refine (hb n (by omega)).last (fun _ hk => hk) fun w hw => .pure ?_
  simp only [Stmt.shape, hx, hy, hz, hw]

theorem switch {value : Expr} {ss : List Stmt} (hv : value.Writable spell)
    (h : ∀ st ∈ ss, ReadsStmt s spell st) (hb : ∀ st ∈ ss, Begins stmtKinds (st.print spell))
    (pos : Pos) : ReadsStmt s spell (.switch pos value ss) := by
  intro n hn
  rw [Stmt.print] at hn ⊢
  simp only [inParens, inBraces, length_append, length_cons, length_nil] at hn
  obtain _ | n := n
  · omega
  rw [stmt]
  refine .peek fun t ht _ => ?_
  simp only [ht, Keyword.token_kind]
  refine .next fun _ _ _ => ?_
  refine (takes_parenExpr hv (by omega)).then fun x hx => ?_
  refine Takes.last (takes_block h hb (by omega)) (fun _ hk => hk) fun xs hxs => .pure ?_
  simp only [Stmt.shape, Stmt.shapeAll_eq_map, hx, hxs]

theorem caseLabel {label : Expr} (h : label.Writable spell) (pos : Pos) :
    ReadsStmt s spell (.caseLabel pos label) := by
  intro n hn
  rw [Stmt.print] at hn ⊢
  simp only [length_append, length_cons, length_nil] at hn
  obtain _ | n := n
  · omega
  rw [stmt]
  refine .peek fun t ht _ => ?_
  simp only [ht, Keyword.token_kind]
  exact .next fun _ _ _ => takes_caseLabel h t.pos (by omega)

theorem ret {value : Option Expr} (h : ∀ e ∈ value, e.Writable spell) (pos : Pos) :
    ReadsStmt s spell (.ret pos value) := by
  intro n hn
  rw [Stmt.print] at hn ⊢
  simp only [length_append, length_cons, length_nil] at hn
  obtain _ | n := n
  · omega
  rw [stmt]
  refine .peek fun t ht _ => ?_
  simp only [ht, Keyword.token_kind]
  exact .next fun _ _ _ => takes_returnStmt h t.pos (by omega)

end ReadsStmt

theorem reads_stmt (h : st.Writable s.engineTypes spell) : ReadsStmt s spell st := by
  induction st using Stmt.inductionOn with
  | block pos body ih =>
    rw [Stmt.Writable, Stmt.writableAll_iff] at h
    exact .block (fun x hx => ih x hx (h x hx)) (fun x hx => (h x hx).begins) pos
  | var pos decl => exact .var h.1 h.2 pos
  | expr pos e => exact .expr h pos
  | ifThen pos cond yes ih => exact .ifThen h.1 (ih h.2) pos
  | ifElse pos cond yes no ihy ihn => exact .ifElse h.1 (ihy h.2.1) h.2.2.1 (ihn h.2.2.2) pos
  | whileLoop pos cond body ih => exact .whileLoop h.1 (ih h.2) pos
  | doWhile pos body cond ih => exact .doWhile (ih h.1) h.2 pos
  | forLoop pos init cond next body ih => exact .forLoop h.1 h.2.1 h.2.2.1 (ih h.2.2.2) pos
  | switch pos value body ih =>
    rw [Stmt.Writable, Stmt.writableAll_iff] at h
    exact .switch h.1 (fun x hx => ih x hx (h.2 x hx)) (fun x hx => (h.2 x hx).begins) pos
  | caseLabel pos label => exact .caseLabel h pos
  | ret pos value => exact .ret h pos
  | defaultLabel pos | breakOut pos | continueLoop pos =>
    intro n hn
    rw [Stmt.print] at hn ⊢
    obtain ⟨n, rfl⟩ : ∃ k, n = k + 1 := ⟨n - 1, by rw [length_cons] at hn; omega⟩
    rw [stmt]
    refine .peek fun t ht _ => ?_
    simp only [ht, Keyword.token_kind]
    exact .next fun _ _ _ => .symbol fun _ => .pure rfl
  | empty pos =>
    intro n hn
    rw [Stmt.print] at hn ⊢
    obtain ⟨n, rfl⟩ : ∃ k, n = k + 1 := ⟨n - 1, by rw [length_cons] at hn; omega⟩
    rw [stmt]
    refine .peek fun t ht _ => ?_
    simp only [ht, Symbol.token_kind]
    exact .next fun _ _ _ => .pure rfl

end Parser

end Nwscript
