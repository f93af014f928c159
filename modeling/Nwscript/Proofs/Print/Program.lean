import Nwscript.Proofs.Print.Stmt

/-! # Written programs are read back

Items are told apart by their first three tokens. A definition may add an engine type for the items
behind it, and the table of declared functions grows with each head; both depend on what is written and
on the place of its first token alone. -/

open List

namespace Nwscript

/-! ## What an item leaves behind -/

/-- The table of functions behind an item whose first token is at `pos`. -/
def Item.record (pos : Pos) : Item → List PrototypeEntry → List PrototypeEntry
  | .prototype decl => PrototypeEntry.recordPrototype decl.name pos
  | .function decl _ => PrototypeEntry.recordDefinition decl.name pos
  | _ => id

def ParserState.behind (s : ParserState) (i : Item) (pos : Pos) : ParserState :=
  { s with engineTypes := i.typesBehind s.engineTypes, prototypes := i.record pos s.prototypes }

variable {name : String} {n : Nat} {i : Item}

namespace Parser

variable {s : ParserState} {spell : NodeId → List Token}

def leaving (i : Item) (pos : Pos) (read : Item) : Parser Item := do
  modify fun s => s.behind i pos
  return read

/-! ## Structures -/

variable {F : TokenKind → Prop} {ps back : List Param} {decl : FunctionDecl} {body : List Stmt}
  {ws : List Token}

theorem takes_structFields {fields : List FieldDecl} (h : ∀ f ∈ fields, f.type.Known s.engineTypes)
    (hn : (fields.flatMap FieldDecl.print).length + 2 ≤ n) :
    Takes s (structFields n) (fields.flatMap FieldDecl.print ++ [Symbol.rightBrace.token]) F
      (·.map FieldDecl.shape = fields.map FieldDecl.shape) := by
  induction fields generalizing n with
  | nil =>
    obtain _ | n := n
    · omega
    rw [structFields]
    refine .acceptYes rfl ?_
    rw [if_pos rfl]
    exact .pure rfl
  | cons f fields ih =>
    obtain ⟨n, rfl⟩ : ∃ k, n = k + 1 + 1 := ⟨n - 2, by omega⟩
    rw [flatMap_cons, length_append, FieldDecl.print, length_append, length_cons] at hn
    rw [flatMap_cons, FieldDecl.print, append_assoc, append_assoc, structFields]
    refine .acceptNo (fun k _ => (f.type.begins.append _).firstKind_ne (by decide) k) ?_
    rw [if_neg Bool.false_ne_true]
    refine (takes_typeSpec (h f (.head _))).then fun type htype => ?_
    have hname : Takes s (fieldNames type (n + 1)) [nameToken f.name, Symbol.semicolon.token]
        (fun _ => True) (·.map FieldDecl.shape = [f.shape]) := by
      rw [fieldNames]
      refine .ident fun pos => .acceptNo (fun _ _ => by simp) ?_
      rw [if_neg Bool.false_ne_true]
      exact .symbol fun _ => .pure (by simp [FieldDecl.shape, htype])
    refine hname.bind (fun _ _ => trivial) fun xs hxs => ?_
    refine (ih (fun g hg => h g (.tail _ hg)) (by omega)).last (fun _ hk => hk) fun ys hys => .pure ?_
    rw [map_append, hxs, hys, singleton_append, map_cons]

theorem takes_structDecl {decl : StructDecl} (h : ∀ f ∈ decl.fields, f.type.Known s.engineTypes)
    (hn : decl.print.length ≤ n) : Takes s (structDecl n) decl.print F (·.shape = decl.shape) := by
  simp only [StructDecl.print, inBraces, length_cons, length_append, length_nil] at hn
  rw [structDecl, StructDecl.print, inBraces, cons_append]
  refine .consume rfl fun _ _ _ => .ident fun _ => .symbol fun _ => ?_
  refine (takes_structFields h (by omega)).then fun xs hxs => ?_
  exact .symbol fun _ => .pure (by simp [StructDecl.shape, hxs])

/-! ## Parameters -/

theorem takes_paramList (hne : ps ≠ [])
    (h : ∀ p ∈ ps, p.type.Known s.engineTypes ∧ ∀ e ∈ p.default, e.Writable spell)
    (hn : 8 * (commaSeparated (ps.map (Param.print spell))).length ≤ n) :
    Takes s (paramList n) (commaSeparated (ps.map (Param.print spell)) ++ [Symbol.rightParen.token]) F
      (·.map Param.shape = ps.map Param.shape) := by
  have hdefault {p : Param} (hp : ∀ e ∈ p.default, e.Writable spell) {n : Nat}
      (hn : 8 * (printInit spell 1 p.default).length ≤ n) :
      Takes s (afterEquals (conditional n)) (printInit spell 1 p.default) (· ∈ initEnds)
        (·.map Expr.shape = p.default.map Expr.shape) := by
    refine takes_afterEquals fun x hx => ?_
    rw [hx, printInit, length_cons] at hn
    exact (takes_conditional (hp x hx) (by omega)).weaken (fun _ hk => hk.conditional_assignment.1)
      fun _ hy => hy
  induction ps generalizing n with
  | nil => exact absurd rfl hne
  | cons p ps ih =>
    obtain ⟨htype, hp⟩ := h p (.head _)
    obtain ⟨n, rfl⟩ : ∃ k, n = k + 1 := by
      refine ⟨n - 1, ?_⟩
      rw [map_cons, commaSeparated_cons, Param.print] at hn
      simp only [length_append, length_cons] at hn
      omega
    rw [paramList]
    refine .peekAny fun t => ?_
    cases ps with
    | nil =>
      rw [map_cons, map_nil, commaSeparated, Param.print] at hn ⊢
      simp only [length_append, length_cons] at hn
      rw [append_assoc, cons_append]
      refine (takes_typeSpec htype).then fun type ht => ?_
      refine .ident fun _ => (hdefault hp (by omega)).bind (fun _ _ => by simp [initEnds]) fun e he => ?_
      refine .node fun _ => .acceptNo (fun _ _ => by simp) ?_
      rw [if_neg Bool.false_ne_true]
      exact .symbol fun _ => .pure (by simp [Param.shape, ht, he])
    | cons p' ps =>
      rw [map_cons, map_cons, commaSeparated, Param.print, ← map_cons] at hn ⊢
      simp only [length_append, length_cons] at hn
      rw [append_assoc, append_assoc, cons_append, cons_append]
      refine (takes_typeSpec htype).then fun type ht => ?_
      refine .ident fun _ => (hdefault hp (by omega)).bind (fun _ _ => by simp [initEnds]) fun e he => ?_
      refine .node fun _ => .acceptYes rfl ?_
      rw [if_pos rfl]
      refine (ih (by simp) (fun x hx => h x (.tail _ hx)) (by omega)).last (fun _ hk => hk)
        fun xs hxs => .pure ?_
      rw [map_cons, hxs]
      simp [Param.shape, ht, he]

/-! ### Defaults -/

theorem missingDefaults_front {front : List Param} (hf : ∀ p ∈ front, p.default = none) :
    missingDefaults false (front ++ back) = missingDefaults false back := by
  induction front with
  | nil => rfl
  | cons p front ih =>
    rw [cons_append, missingDefaults, hf p (.head _)]
    exact ih fun x hx => hf x (.tail _ hx)

theorem missingDefaults_back (hb : ∀ p ∈ back, p.default.isSome) (seen : Bool) :
    missingDefaults seen back = [] := by
  induction back generalizing seen with
  | nil => rfl
  | cons p back ih =>
    rw [missingDefaults, if_pos (hb p (.head _))]
    exact ih (fun x hx => hb x (.tail _ hx)) true

theorem missingDefaults_of_trailing {front : List Param}
    (h : ps.map Param.shape = (front ++ back).map Param.shape) (hf : ∀ p ∈ front, p.default = none)
    (hb : ∀ p ∈ back, p.default.isSome) : missingDefaults false ps = [] := by
  have hsame {xs ys : List Param} (h : xs.map Param.shape = ys.map Param.shape) :
      ∀ x ∈ xs, ∃ y ∈ ys, x.default.map Expr.shape = y.default.map Expr.shape := by
    intro x hx
    obtain ⟨y, hy, hxy⟩ := List.mem_map.mp (h ▸ List.mem_map_of_mem hx)
    exact ⟨y, hy, (congrArg Param.default hxy).symm⟩
  rw [map_append] at h
  obtain ⟨front', back', rfl, hfront, hback⟩ := map_eq_append_iff.mp h
  rw [missingDefaults_front, missingDefaults_back]
  · intro p hp
    obtain ⟨q, hq, hpq⟩ := hsame hback p hp
    have := hb q hq
    rw [← Option.isSome_map (f := Expr.shape), hpq, Option.isSome_map]
    exact this
  · intro p hp
    obtain ⟨q, hq, hpq⟩ := hsame hfront p hp
    rw [hf q hq, Option.map_none, Option.map_eq_none_iff] at hpq
    exact hpq

/-! ### Heads of functions -/

section Void

variable {β γ : Type} {k : Unit → Parser β} {w : Token} {ws : List Token} {F : TokenKind → Prop}
  {q : γ → Parser β} {R : γ → Prop}

theorem Leads.skipVoid (hw : w.kind = .keyword .kwVoid → ∀ x, firstKind ws x ≠ .symbol .rightParen)
    (h : Leads s (k ()) (w :: ws) F q R) : Leads s (Parser.skipVoid >>= k) (w :: ws) F q R := by
  rw [Parser.skipVoid, bind_assoc]
  refine .peekKind fun _ _ => ?_
  rw [bind_assoc]
  refine .peekSecond fun t x _ ht => ?_
  rw [firstKind_cons, ht, if_neg, pure_bind]
  · exact h
  · simp only [Bool.and_eq_true, decide_eq_true_eq, not_and]
    exact fun hk => hw hk x

end Void

theorem typeSpec_print_name (type : TypeSpec) (name : String) (ws : List Token) :
    ∃ w vs, type.print ++ nameToken name :: ws = w :: vs ∧ ∀ x, firstKind vs x = .ident := by
  cases type <;> exact ⟨_, _, rfl, fun _ => rfl⟩

theorem takes_paramsToEnd (h : ∀ p ∈ ps, p.type.Known s.engineTypes ∧ ∀ e ∈ p.default, e.Writable spell)
    (hn : 8 * (commaSeparated (ps.map (Param.print spell))).length ≤ n) :
    Takes s (paramsToEnd n) (commaSeparated (ps.map (Param.print spell)) ++ [Symbol.rightParen.token])
      F (·.map Param.shape = ps.map Param.shape) := by
  rw [paramsToEnd]
  cases ps with
  | nil =>
    refine .acceptYes rfl ?_
    rw [if_pos rfl]
    exact .pure rfl
  | cons p ps =>
    refine .acceptNo (fun k _ => ?_) ?_
    · rw [map_cons, commaSeparated_cons, Param.print, append_assoc, append_assoc]
      exact (p.type.begins.append _).firstKind_ne (by decide) k
    rw [if_neg Bool.false_ne_true]
    exact takes_paramList (by simp) h hn

theorem takes_params (h : decl.Writable s.engineTypes spell)
    (hn : 8 * (commaSeparated (decl.params.map (Param.print spell))).length ≤ n) :
    Takes s (params n) (inParens (commaSeparated (decl.params.map (Param.print spell)))) F
      (·.map Param.shape = decl.params.map Param.shape) := by
  have hend := takes_paramsToEnd h.params hn (F := F)
  obtain ⟨front, back, hsplit, hfront, hback⟩ := h.trailing
  rw [params, inParens]
  refine .symbol fun _ => ?_
  have hrest : Leads s (paramsToEnd n >>= fun ps => reportMissing ps >>= fun _ => pure ps)
      (commaSeparated (decl.params.map (Param.print spell)) ++ [Symbol.rightParen.token]) F pure
      (·.map Param.shape = decl.params.map Param.shape) := by
    refine hend.last (fun _ hk => hk) fun ps hps => ?_
    rw [reportMissing, missingDefaults_of_trailing (hsplit ▸ hps) hfront hback]
    exact .pure hps
  cases hparams : decl.params with
  | nil =>
    rw [hparams] at hrest
    exact .skipVoid (by simp) hrest
  | cons p ps =>
    rw [hparams, map_cons, commaSeparated_cons, Param.print, append_assoc, append_assoc,
      cons_append] at hrest
    rw [map_cons, commaSeparated_cons, Param.print, append_assoc, append_assoc, cons_append]
    obtain ⟨w, vs, hws, hname⟩ := typeSpec_print_name p.type p.name (printInit spell 1 p.default ++
      ((ps.map (Param.print spell)).flatMap (Symbol.comma.token :: ·) ++ [Symbol.rightParen.token]))
    rw [hws] at hrest ⊢
    exact .skipVoid (fun _ x => by simp [hname x]) hrest

/-! ## Items -/

section Leaving

variable {F : TokenKind → Prop} {R : Item → Prop}

variable {pos : Pos}

theorem Leads.leaveNothing {x : Item} (hi : ∀ s : ParserState, s.behind i pos = s) (h : R x) :
    Leads s (Pure.pure x) [] F (leaving i pos) R := by
  intro ts rest id hts _
  obtain rfl := map_eq_nil_iff.mp hts
  refine ⟨x, id, ?_, h⟩
  show EStateM.Result.ok x _ = EStateM.Result.ok x ((s.facing rest id).behind i pos)
  rw [hi]
  rfl

theorem Leads.leaveNothingSome {x : Item} (hi : ∀ s : ParserState, s.behind i pos = s) (h : R x) :
    Leads s (Pure.pure (some x)) [] F (fun x => leaving i pos x >>= fun x => Pure.pure (some x)) R := by
  have hx : Leads s (Pure.pure x) [] F (leaving i pos) R := .leaveNothing hi h
  have hsome := hx.andThen fun x => Pure.pure (some x)
  rwa [pure_bind] at hsome

theorem Leads.leaveDefinition {p : Parser (List Stmt)} {Q : List Stmt → Prop} {read : FunctionDecl}
    (hname : read.name = decl.name) (hp : Takes (s.behind (.function decl body) pos) p ws F Q)
    (hQ : ∀ b, Q b → R (.function read b)) :
    Leads s (do
        modify fun s =>
          { s with prototypes := PrototypeEntry.recordDefinition read.name pos s.prototypes }
        return .function read (← p))
      ws F (leaving (.function decl body) pos) R := by
  intro ts rest id hts hF
  obtain ⟨b, id', hb, hb'⟩ := hp ts rest id hts hF
  refine ⟨.function read b, id', ?_, hQ b hb'⟩
  rw [hname]
  exact bind_ok (k := fun b => Pure.pure (Item.function read b)) hb

end Leaving

theorem reads_prototype (h : decl.Writable s.engineTypes spell) (pos : Pos)
    (hn : 8 * (commaSeparated (decl.params.map (Param.print spell))).length ≤ n) :
    Leads s (function pos decl.ret decl.name n)
      (inParens (commaSeparated (decl.params.map (Param.print spell))) ++ [Symbol.semicolon.token]) F
      (leaving (.prototype decl) pos) (·.shape = (Item.prototype decl).shape) := by
  rw [function]
  refine (takes_params h hn).then fun ps hps => ?_
  refine .acceptYes rfl ?_
  rw [if_pos rfl]
  exact .here (leaving (.prototype decl) pos) (.prototype { pos, ret := decl.ret, name := decl.name, params := ps })
    (by simp [Item.shape, FunctionDecl.shape, hps])

theorem reads_definition (h : decl.Writable s.engineTypes spell)
    (hb : Stmt.WritableAll s.engineTypes spell body) (pos : Pos)
    (hn : 8 * (commaSeparated (decl.params.map (Param.print spell))).length ≤ n)
    (hn' : 8 * (Stmt.printAll spell body).length + 2 ≤ n) : Leads s (function pos decl.ret decl.name n)
      (inParens (commaSeparated (decl.params.map (Param.print spell))) ++
        inBraces (Stmt.printAll spell body)) F
      (leaving (.function decl body) pos) (·.shape = (Item.function decl body).shape) := by
  rw [Stmt.writableAll_iff] at hb
  rw [function]
  refine (takes_params h hn).then fun ps hps => ?_
  refine .acceptNo (fun _ _ => by simp [inBraces]) ?_
  rw [if_neg Bool.false_ne_true]
  refine .leaveDefinition (Q := (·.map Stmt.shape = body.map Stmt.shape)) rfl ?_ fun b hb => ?_
  · exact takes_block (fun st hst => reads_stmt (s := s.behind (.function decl body) pos) (hb st hst))
      (fun st hst => (hb st hst).begins) hn'
  · simp [Item.shape, FunctionDecl.shape, hps, hb]

theorem leads_functionOrVariable {α : Type} {q : α → Parser Item} {R : α → Prop} {type : TypeSpec}
    (ht : type.Known s.engineTypes) (pos : Pos)
    (h : ∀ pos', Leads s (do
        if (← peekKind) = .symbol .leftParen then function pos type name n
        else return .global (← varDecl pos false type (name, pos') n)) ws F q R) :
    Leads s (functionOrVariable pos n) (type.print ++ nameToken name :: ws) F q R := by
  rw [functionOrVariable]
  refine (takes_typeSpec ht).then fun type' htype => ?_
  rw [htype]
  exact .ident fun pos' => h pos'

theorem varTail_firstKind_ne (d : Declarator) (ds : List Declarator) (k : TokenKind) :
    firstKind (varTail spell d ds) k ≠ .symbol .leftParen := by
  rw [varTail]
  cases d.init with
  | some e => simp [printInit]
  | none =>
    cases ds with
    | nil => simp [printInit]
    | cons d' ds => simp [printInit]

theorem firstKind_inParens (ws vs : List Token) (k : TokenKind) :
    firstKind (inParens ws ++ vs) k = .symbol .leftParen := rfl

theorem splitDefinition_text {value : String} (hname : ∀ c ∈ name.toList, Text.isBlank c = false)
    (hvalue : Text.trim value.toList = value.toList) :
    splitDefinition (definitionText name value).toList = (name, value) := by
  have hname' : ∀ c ∈ name.toList, (!Text.isBlank c) = true := fun c hc => by simp [hname c hc]
  by_cases hv : value = ""
  · rw [definitionText, if_pos hv, splitDefinition, takeWhile_eq_self_iff.mpr hname',
      dropWhile_eq_nil_iff.mpr hname', hv, String.ofList_toList]
    rfl
  · have htext : (definitionText name value).toList = name.toList ++ ' ' :: value.toList := by
      rw [definitionText, if_neg hv, String.toList_append, String.toList_append, append_assoc]
      rfl
    have hspace : Text.trim (' ' :: value.toList) = Text.trim value.toList := rfl
    rw [htext, splitDefinition, takeWhile_append_of_pos hname', dropWhile_append_of_pos hname']
    have htake : (' ' :: value.toList).takeWhile (fun c => !Text.isBlank c) = [] := rfl
    have hdrop : (' ' :: value.toList).dropWhile (fun c => !Text.isBlank c) = ' ' :: value.toList := rfl
    rw [htake, hdrop, append_nil, hspace, hvalue, String.ofList_toList, String.ofList_toList]

def ReadsItem (s : ParserState) (spell : NodeId → List Token) (i : Item) : Prop :=
  ∀ n, 8 * (i.print spell).length ≤ n → ∀ t ts rest id, (t :: ts).map Token.bare = i.print spell →
    ∃ i' id', item n (s.facing (t :: ts ++ rest) id) =
      (leaving i t.pos i' >>= fun x => pure (some x)) (s.facing rest id') ∧ i'.shape = i.shape

namespace ReadsItem

theorem of_first {k : Token → Parser (Option Item)} {t : Token} {ts rest : List Token} {id : NodeId}
    (hts : (t :: ts).map Token.bare = i.print spell) (h : Leads s (k t) (i.print spell) (fun _ => True)
      (fun x => leaving i t.pos x >>= fun x => pure (some x)) (·.shape = i.shape)) :
    ∃ i' id', (peek >>= k) (s.facing (t :: ts ++ rest) id) =
      (leaving i t.pos i' >>= fun x => pure (some x)) (s.facing rest id') ∧ i'.shape = i.shape :=
  h (t :: ts) rest id hts trivial

theorem includeLine (h : normalizeName name = name) (pos : Pos) :
    ReadsItem s spell (.includeLine pos name) := by
  intro n _ t ts rest id hts
  have ht : t.bare = .word .includeLine name := (List.cons.inj hts).1
  have hk : t.kind = .includeLine := congrArg Token.kind ht
  have htext : t.text = name := congrArg Token.text ht
  rw [item]
  refine of_first hts ?_
  simp only [hk]
  refine .next fun _ _ _ => .leaveNothingSome (fun _ => rfl) ?_
  rw [htext, h]
  rfl

theorem struct {decl : StructDecl} (h : ∀ f ∈ decl.fields, f.type.Known s.engineTypes) :
    ReadsItem s spell (.struct decl) := by
  intro n hn t ts rest id hts
  have ht : t.bare = Keyword.kwStruct.token := (List.cons.inj hts).1
  have hk : t.kind = .keyword .kwStruct := congrArg Token.kind ht
  rw [Item.print] at hn
  rw [item]
  refine of_first hts ?_
  simp only [hk]
  have hdecl := takes_structDecl h (n := n) (by omega) (F := fun _ => True)
  rw [Item.print]
  rw [StructDecl.print, inBraces, cons_append] at hdecl ⊢
  refine .peekThird fun t' _ _ ht' => ?_
  rw [firstKind_cons, Symbol.token_kind] at ht'
  rw [if_pos ht']
  refine hdecl.last (fun _ hk => hk) fun x hx => ?_
  exact .leaveNothingSome (fun _ => rfl) (by simp [Item.shape, hx])

theorem ofType {type : TypeSpec} (hi : i.print spell = type.print ++ nameToken name :: ws)
    (h : ∀ pos n, 8 * (i.print spell).length ≤ n → Leads s (functionOrVariable pos n)
      (type.print ++ nameToken name :: ws) (fun _ => True) (leaving i pos) (·.shape = i.shape)) :
    ReadsItem s spell i := by
  intro n hn t ts rest id hts
  have hread := (h t.pos n hn).andThen fun x => pure (some x)
  rw [item]
  refine of_first hts ?_
  rw [hi] at hts ⊢
  cases type with
  | struct name' =>
    have hk : t.kind = .keyword .kwStruct := congrArg Token.kind (List.cons.inj hts).1
    simp only [hk]
    refine .peekThird fun t' _ _ ht' => ?_
    have hname : t'.kind = .ident := ht'
    rw [if_neg (by simp [hname])]
    exact hread
  | engine name' =>
    have hk : t.kind = .ident := congrArg Token.kind (List.cons.inj hts).1
    simp only [hk]
    exact hread
  | _ =>
    have hk := congrArg Token.kind (List.cons.inj hts).1
    rw [Token.bare_kind, Keyword.token_kind] at hk
    simp only [hk]
    exact hread

theorem prototype (h : decl.Writable s.engineTypes spell) : ReadsItem s spell (.prototype decl) := by
  have hprint : (Item.prototype decl).print spell = decl.ret.print ++ nameToken decl.name ::
      (inParens (commaSeparated (decl.params.map (Param.print spell))) ++ [Symbol.semicolon.token]) := by
    rw [Item.print, FunctionDecl.print, append_assoc, cons_append]
  refine ofType hprint fun pos n hn => leads_functionOrVariable h.ret pos fun pos' => ?_
  refine .peekKind fun _ _ => ?_
  simp only [hprint, inParens, length_append, length_cons, length_nil] at hn
  rw [if_pos (firstKind_inParens ..)]
  exact reads_prototype h pos (by omega)

theorem function (h : decl.Writable s.engineTypes spell)
    (hb : Stmt.WritableAll s.engineTypes spell body) : ReadsItem s spell (.function decl body) := by
  have hprint : (Item.function decl body).print spell = decl.ret.print ++ nameToken decl.name ::
      (inParens (commaSeparated (decl.params.map (Param.print spell))) ++
        inBraces (Stmt.printAll spell body)) := by
    rw [Item.print, FunctionDecl.print, append_assoc, cons_append]
  refine ofType hprint fun pos n hn => leads_functionOrVariable h.ret pos fun pos' => ?_
  refine .peekKind fun _ _ => ?_
  simp only [hprint, inParens, inBraces, length_append, length_cons, length_nil] at hn
  rw [if_pos (firstKind_inParens ..)]
  exact reads_definition h hb pos (by omega) (by omega)

theorem plainGlobal {decl : VarDecl} (hc : decl.isConst = false) (h : decl.Writable s.engineTypes spell) :
    ReadsItem s spell (.global decl) := by
  obtain ⟨pos', isConst, type, vars⟩ := decl
  obtain ⟨d, ds, rfl⟩ := exists_cons_of_ne_nil h.vars
  obtain rfl : isConst = false := hc
  have hprint : (Item.global ⟨pos', false, type, d :: ds⟩).print spell =
      type.print ++ nameToken d.name :: varTail spell d ds := by
    simp only [Item.print, VarDecl.print, declarators_print, Bool.false_eq_true, if_false, nil_append]
  refine ofType hprint fun pos n hn => leads_functionOrVariable h.type pos fun pos'' => ?_
  refine .peekKind fun k _ => ?_
  simp only [hprint, length_append, length_cons] at hn
  rw [if_neg (varTail_firstKind_ne d ds k)]
  refine (takes_varDecl h.init pos pos'' false type (by omega)).last (fun _ hk => hk) fun x hx => ?_
  exact .leaveNothing (fun _ => rfl) (by rw [Item.shape, hx]; rfl)

theorem constGlobal {decl : VarDecl} (hc : decl.isConst = true) (h : decl.Writable s.engineTypes spell) :
    ReadsItem s spell (.global decl) := by
  obtain ⟨pos', isConst, type, vars⟩ := decl
  obtain ⟨d, ds, rfl⟩ := exists_cons_of_ne_nil h.vars
  obtain rfl : isConst = true := hc
  have hprint : (Item.global ⟨pos', true, type, d :: ds⟩).print spell =
      Keyword.kwConst.token :: (type.print ++ nameToken d.name :: varTail spell d ds) := by
    simp only [Item.print, VarDecl.print, declarators_print, if_true, singleton_append]
  intro n hn t ts rest id hts
  simp only [hprint, length_append, length_cons] at hn
  have hk : t.kind = .keyword .kwConst := congrArg Token.kind (List.cons.inj (hts.trans hprint)).1
  rw [item]
  refine of_first hts ?_
  simp only [hk]
  rw [hprint, constant]
  refine .next fun _ _ _ => ?_
  rw [bind_assoc]
  refine (takes_typeSpec h.type).then fun type' htype => ?_
  rw [htype, bind_assoc]
  refine .ident fun pos'' => ?_
  rw [bind_assoc]
  refine (takes_varDecl h.init t.pos pos'' true type (by omega)).last (fun _ hk => hk) fun x hx => ?_
  rw [pure_bind]
  exact .leaveNothingSome (fun _ => rfl) (by rw [Item.shape, hx]; rfl)

theorem defineLine {value : String} (hname : ∀ c ∈ name.toList, Text.isBlank c = false)
    (hvalue : Text.trim value.toList = value.toList) (pos : Pos) :
    ReadsItem s spell (.defineLine pos name value) := by
  intro n _ t ts rest id hts
  have ht : t.bare = .word .defineLine (definitionText name value) := (List.cons.inj hts).1
  have hk : t.kind = .defineLine := congrArg Token.kind ht
  have htext : t.text = definitionText name value := congrArg Token.text ht
  have hread : Leads s (Parser.defineLine t) [] (fun _ => True)
      (leaving (.defineLine pos name value) t.pos) (·.shape = (Item.defineLine pos name value).shape) := by
    rw [Parser.defineLine, htext, splitDefinition_text hname hvalue]
    have hiff : (engineStructureLead.toList.isPrefixOf name.toList && decide (value ≠ "")) = true ↔
        engineStructureLead.toList <+: name.toList ∧ value ≠ "" := by
      rw [Bool.and_eq_true, isPrefixOf_iff_prefix, decide_eq_true_eq]
    have hbehind (s : ParserState) : s.behind (.defineLine pos name value) t.pos =
        if engineStructureLead.toList <+: name.toList ∧ value ≠ "" then
          { s with engineTypes := value :: s.engineTypes } else s := by
      simp only [ParserState.behind, Item.typesBehind, Item.record]
      split <;> rfl
    by_cases hc : engineStructureLead.toList <+: name.toList ∧ value ≠ ""
    · have hadd : (modify fun s => { s with engineTypes := value :: s.engineTypes } : Parser Unit) =
          modify fun s => s.behind (.defineLine pos name value) t.pos := by
        simp only [hbehind, if_pos hc]
      dsimp only
      rw [if_pos (hiff.mpr hc), hadd]
      exact .here (leaving (.defineLine pos name value) t.pos) _ rfl
    · dsimp only
      rw [if_neg (mt hiff.mp hc)]
      exact .leaveNothing (fun s => by rw [hbehind, if_neg hc]) rfl
  rw [item]
  refine of_first hts ?_
  simp only [hk]
  exact .next fun _ _ _ => hread.andThen _

end ReadsItem

theorem readsItem (h : i.Writable s.engineTypes spell) : ReadsItem s spell i := by
  cases i with
  | includeLine pos name => exact .includeLine h pos
  | defineLine pos name value => exact .defineLine h.1 h.2 pos
  | struct decl => exact .struct h
  | prototype decl => exact .prototype h
  | function decl body => exact .function h.1 h.2
  | global decl =>
    cases hc : decl.isConst with
    | false => exact .plainGlobal hc h
    | true => exact .constGlobal hc h

end Parser

/-! ## Programs -/

def itemKinds : List TokenKind := [.includeLine, .defineLine, .keyword .kwConst] ++ typeKinds

theorem Item.begins (spell : NodeId → List Token) (i : Item) : Begins itemKinds (i.print spell) := by
  have htype (type : TypeSpec) (ws : List Token) : Begins itemKinds (type.print ++ ws) :=
    (type.begins.append ws).mono (subset_append_right ..)
  cases i with
  | includeLine pos name => exact .cons (by simp [itemKinds])
  | defineLine pos name value => exact .cons (by simp [itemKinds])
  | struct decl => exact .cons (by simp [itemKinds, typeKinds])
  | prototype decl | function decl _ =>
    rw [Item.print, FunctionDecl.print, append_assoc]
    exact htype _ _
  | global decl =>
    rw [Item.print, VarDecl.print]
    split
    · exact .cons (by simp [itemKinds])
    · exact htype _ _

def Program.starts (spell : NodeId → List Token) : Program → List Token → List (Item × Pos)
  | [], _ => []
  | i :: p, ts =>
    (i, (ts.headD endToken).pos) :: Program.starts spell p (ts.drop (i.print spell).length)

def ParserState.behindAll (s : ParserState) (items : List (Item × Pos)) : ParserState :=
  items.foldl (fun s x => s.behind x.1 x.2) s

namespace Parser

variable {spell : NodeId → List Token}

theorem items_print {p : Program} {s : ParserState} (hp : p.Writable spell s.engineTypes)
    (hn : 8 * (p.print spell).length + 1 ≤ n) {ts rest : List Token}
    (hts : ts.map Token.bare = p.print spell) (hrest : s.ahead rest = .eof) (id : NodeId) :
    ∃ p' id', items n (s.facing (ts ++ rest) id) =
        .ok p' ((s.behindAll (p.starts spell ts)).facing rest id') ∧
      p'.map Item.shape = p.map Item.shape := by
  induction p generalizing s n ts id with
  | nil =>
    obtain _ | n := n
    · omega
    obtain rfl : ts = [] := map_eq_nil_iff.mp hts
    refine ⟨[], id, ?_, rfl⟩
    have hkind : peekKind (s.facing ([] ++ rest) id) = .ok .eof (s.facing rest id) := by
      rw [← hrest, ← s.facing_peekKind rest id]
      rfl
    rw [items, bind_ok hkind, if_pos rfl]
    rfl
  | cons i p ih =>
    obtain _ | n := n
    · omega
    obtain ⟨hi, hp⟩ := hp
    rw [Program.print, flatMap_cons] at hts hn
    obtain ⟨ts₁, ts₂, rfl, hts₁, hts₂⟩ := map_eq_append_iff.mp hts
    have hlen : ts₁.length = (i.print spell).length := by rw [← hts₁, length_map]
    obtain ⟨w, ws, hprint, hw⟩ := i.begins spell
    obtain ⟨t, ts₁, rfl, htw, -⟩ := map_eq_cons_iff.mp (hts₁.trans hprint)
    rw [length_append] at hn
    obtain ⟨i', id₁, hitem, hshape⟩ :=
      readsItem hi n (by omega) t ts₁ (ts₂ ++ rest) id hts₁
    have hpos : 0 < (i.print spell).length := by rw [← hlen]; exact Nat.succ_pos _
    obtain ⟨p', id₂, hitems, hshapes⟩ := ih (s := s.behind i t.pos) hp (n := n)
      (by rw [Program.print]; omega) hts₂ hrest id₁
    refine ⟨i' :: p', id₂, ?_, by rw [map_cons, hshape, hshapes, map_cons]⟩
    have hne : t.kind ≠ .eof := by
      intro hk
      rw [← htw, Token.bare_kind, hk] at hw
      exact absurd hw (by decide)
    have hkind : peekKind (s.facing (t :: ts₁ ++ ts₂ ++ rest) id) =
        .ok t.kind (s.facing (t :: ts₁ ++ (ts₂ ++ rest)) id) := by
      rw [append_assoc]
      rfl
    have hitem' : item n (s.facing (t :: ts₁ ++ (ts₂ ++ rest)) id) =
        .ok (some i') ((s.behind i t.pos).facing (ts₂ ++ rest) id₁) := hitem
    have hstarts : Program.starts spell (i :: p) (t :: ts₁ ++ ts₂) =
        (i, t.pos) :: Program.starts spell p ts₂ := by
      rw [Program.starts, drop_left' hlen]
      rfl
    rw [items, bind_ok hkind, if_neg hne, bind_ok (recovering_ok hitem'), bind_ok hitems, hstarts]
    rfl

/-! ### The table of functions -/

end Parser

namespace PrototypeEntry

variable {name : String} {f : PrototypeEntry → PrototypeEntry} {es : List PrototypeEntry}

def Sorted (es : List PrototypeEntry) : Prop := es.Pairwise (·.name < ·.name)

theorem name_mem_update (hf : ∀ e, (f e).name = e.name) {e : PrototypeEntry} (h : e ∈ update name f es) :
    e.name = name ∨ ∃ e' ∈ es, e.name = e'.name := by
  induction es with
  | nil =>
    obtain rfl := mem_singleton.mp h
    exact .inl (hf _)
  | cons x es ih =>
    rw [update] at h
    split at h
    · rcases mem_cons.mp h with rfl | h
      · exact .inr ⟨x, .head _, hf x⟩
      · exact .inr ⟨e, .tail _ h, rfl⟩
    · split at h
      · rcases mem_cons.mp h with rfl | h
        · exact .inl (hf _)
        · exact .inr ⟨e, h, rfl⟩
      · rcases mem_cons.mp h with rfl | h
        · exact .inr ⟨e, .head _, rfl⟩
        · rcases ih h with hname | ⟨e', he', hname⟩
          · exact .inl hname
          · exact .inr ⟨e', .tail _ he', hname⟩

theorem Sorted.update (h : Sorted es) (name : String) (hf : ∀ e, (f e).name = e.name) :
    Sorted (PrototypeEntry.update name f es) := by
  induction es with
  | nil => exact pairwise_singleton ..
  | cons x es ih =>
    obtain ⟨hx, hes⟩ := pairwise_cons.mp h
    rw [PrototypeEntry.update]
    split
    · exact pairwise_cons.mpr ⟨fun e he => by rw [hf]; exact hx e he, hes⟩
    · rename_i hne
      split
      · rename_i hlt
        refine pairwise_cons.mpr ⟨fun e he => ?_, h⟩
        rw [hf]
        rcases mem_cons.mp he with rfl | he
        · exact hlt
        · exact hlt.trans (hx e he)
      · rename_i hle
        refine pairwise_cons.mpr ⟨fun e he => ?_, ih hes⟩
        rcases name_mem_update hf he with hname | ⟨e', he', hname⟩
        · rw [hname]
          exact lt_of_le_of_ne (not_lt.mp hle) hne
        · rw [hname]
          exact hx e' he'

def lookup (name : String) (es : List PrototypeEntry) : PrototypeEntry :=
  (es.find? (·.name == name)).getD { name }

theorem mem_update (h : Sorted es) (hf : ∀ e, (f e).name = e.name) (e : PrototypeEntry) :
    e ∈ update name f es ↔ if e.name = name then e = f (lookup name es) else e ∈ es := by
  induction es with
  | nil =>
    have hlookup : lookup name [] = { name } := rfl
    rw [update, mem_singleton, hlookup]
    split
    · rfl
    · rename_i hne
      refine iff_of_false ?_ (not_mem_nil)
      rintro rfl
      exact hne (hf _)
  | cons x es ih =>
    obtain ⟨hx, hes⟩ := pairwise_cons.mp h
    rw [update]
    by_cases hxn : x.name = name
    · have hlookup : lookup name (x :: es) = x := by simp [lookup, hxn]
      rw [if_pos hxn, hlookup, mem_cons, mem_cons]
      split
      · rename_i hen
        refine or_iff_left fun he => ?_
        exact absurd (hx e he) (by rw [hen, hxn]; exact lt_irrefl _)
      · rename_i hen
        refine or_congr_left (iff_of_false ?_ ?_)
        · rintro rfl
          exact hen ((hf x).trans hxn)
        · rintro rfl
          exact hen hxn
    · have hlookup : lookup name (x :: es) = lookup name es := by simp [lookup, hxn]
      rw [if_neg hxn, hlookup]
      by_cases hlt : name < x.name
      · have hnone : lookup name es = { name } := by
          have hnot : es.find? (·.name == name) = none := by
            rw [find?_eq_none]
            intro e he hname
            exact absurd (hlt.trans (hx e he)) (by rw [beq_iff_eq.mp hname]; exact lt_irrefl _)
          rw [lookup, hnot]
          rfl
        rw [if_pos hlt, hnone, mem_cons]
        split
        · rename_i hen
          refine or_iff_left fun he => ?_
          rcases mem_cons.mp he with rfl | he
          · exact hxn hen
          · exact absurd (hlt.trans (hx e he)) (by rw [hen]; exact lt_irrefl _)
        · rename_i hen
          refine or_iff_right ?_
          rintro rfl
          exact hen (hf _)
      · rw [if_neg hlt, mem_cons, ih hes]
        split
        · rename_i hen
          refine or_iff_right ?_
          rintro rfl
          exact hxn hen
        · rw [mem_cons]

end PrototypeEntry

def Item.prototypeName? : Item → Option String
  | .prototype decl => some decl.name
  | _ => none

def Item.definitionName? : Item → Option String
  | .function decl _ => some decl.name
  | _ => none

def prototypePlaces (name : String) (items : List (Item × Pos)) : List Pos :=
  (items.filter fun x => x.1.prototypeName? = some name).map Prod.snd

def definitionPlaces (name : String) (items : List (Item × Pos)) : List Pos :=
  (items.filter fun x => x.1.definitionName? = some name).map Prod.snd

theorem prototypePlaces_append (name : String) (items items' : List (Item × Pos)) :
    prototypePlaces name (items ++ items') = prototypePlaces name items ++ prototypePlaces name items' := by
  rw [prototypePlaces, filter_append, map_append, prototypePlaces, prototypePlaces]

theorem definitionPlaces_append (name : String) (items items' : List (Item × Pos)) :
    definitionPlaces name (items ++ items') =
      definitionPlaces name items ++ definitionPlaces name items' := by
  rw [definitionPlaces, filter_append, map_append, definitionPlaces, definitionPlaces]

def entryOf (name : String) (items : List (Item × Pos)) : PrototypeEntry :=
  { name, prototypes := prototypePlaces name items, definition := (definitionPlaces name items).head? }

/-- The table has one entry for each declared function, in the order of the names. -/
structure PrototypeEntry.Lists (items : List (Item × Pos)) (es : List PrototypeEntry) : Prop where
  sorted : es.Pairwise (·.name < ·.name)
  mem_iff : ∀ e, e ∈ es ↔ e = entryOf e.name items ∧
    (prototypePlaces e.name items ≠ [] ∨ definitionPlaces e.name items ≠ [])

namespace PrototypeEntry.Lists

variable {items : List (Item × Pos)} {es : List PrototypeEntry}

theorem lookup_eq (h : Lists items es) (name : String) : lookup name es = entryOf name items := by
  rw [lookup]
  cases hfind : es.find? (·.name == name) with
  | some e =>
    have hname : e.name = name := by simpa using find?_some hfind
    have he := ((h.mem_iff e).mp (mem_of_find?_eq_some hfind)).1
    rw [Option.getD_some, he, hname]
  | none =>
    have hnone : ¬(prototypePlaces name items ≠ [] ∨ definitionPlaces name items ≠ []) := by
      intro hd
      have hmem : entryOf name items ∈ es := (h.mem_iff _).mpr ⟨rfl, hd⟩
      have := find?_eq_none.mp hfind _ hmem
      simp [entryOf] at this
    push Not at hnone
    rw [Option.getD_none, entryOf, hnone.1, hnone.2]
    rfl

/-- One step: an update for the item that comes next keeps the table right. -/
theorem update (h : Lists items es) {f : PrototypeEntry → PrototypeEntry} {x : Item × Pos}
    (hf : ∀ e, (f e).name = e.name) (hentry : f (entryOf name items) = entryOf name (items ++ [x]))
    (hsome : prototypePlaces name [x] ≠ [] ∨ definitionPlaces name [x] ≠ [])
    (hother : ∀ other ≠ name, prototypePlaces other [x] = [] ∧ definitionPlaces other [x] = []) :
    Lists (items ++ [x]) (PrototypeEntry.update name f es) where
  sorted := Sorted.update h.sorted name hf
  mem_iff e := by
    rw [PrototypeEntry.mem_update h.sorted hf, h.lookup_eq, hentry]
    split
    · rename_i hname
      rw [hname, prototypePlaces_append, definitionPlaces_append]
      refine (and_iff_left ?_).symm
      exact hsome.imp (fun hp => by simp [hp]) fun hd => by simp [hd]
    · rename_i hname
      obtain ⟨hp, hd⟩ := hother e.name hname
      rw [h.mem_iff, entryOf, entryOf, prototypePlaces_append, definitionPlaces_append, hp, hd,
        append_nil, append_nil]

theorem skip (h : Lists items es) (hp : i.prototypeName? = none) (hd : i.definitionName? = none)
    (pos : Pos) : Lists (items ++ [(i, pos)]) es where
  sorted := h.sorted
  mem_iff e := by
    have hp' : prototypePlaces e.name [(i, pos)] = [] := by simp [prototypePlaces, hp]
    have hd' : definitionPlaces e.name [(i, pos)] = [] := by simp [definitionPlaces, hd]
    rw [h.mem_iff, entryOf, entryOf, prototypePlaces_append, definitionPlaces_append, hp', hd',
      append_nil, append_nil]

/-- One step: what an item records keeps the table right. -/
theorem record (h : Lists items es) (i : Item) (pos : Pos) :
    Lists (items ++ [(i, pos)]) (i.record pos es) := by
  cases i with
  | prototype decl =>
    refine h.update (fun _ => rfl) ?_ (.inl (by simp [prototypePlaces, Item.prototypeName?])) ?_
    · simp [entryOf, prototypePlaces, definitionPlaces, Item.prototypeName?, Item.definitionName?]
    · intro other hne
      simp [prototypePlaces, definitionPlaces, Item.prototypeName?, Item.definitionName?, hne.symm]
  | function decl body =>
    refine h.update (fun _ => rfl) ?_ (.inr (by simp [definitionPlaces, Item.definitionName?])) ?_
    · simp [entryOf, prototypePlaces, definitionPlaces, Item.prototypeName?, Item.definitionName?]
    · intro other hne
      simp [prototypePlaces, definitionPlaces, Item.prototypeName?, Item.definitionName?, hne.symm]
  | includeLine _ _ | defineLine _ _ _ | struct _ | global _ => exact h.skip rfl rfl pos

end PrototypeEntry.Lists

theorem ParserState.behindAll_lists (s : ParserState) (hs : s.prototypes = []) (items : List (Item × Pos)) :
    PrototypeEntry.Lists items (s.behindAll items).prototypes := by
  induction items using List.reverseRecOn with
  | nil =>
    refine ⟨by simp [behindAll, hs], fun e => ?_⟩
    simp [behindAll, hs, prototypePlaces, definitionPlaces]
  | append_singleton items x ih =>
    rw [behindAll, foldl_append]
    exact ih.record x.1 x.2

theorem ParserState.behindAll_errors (s : ParserState) (items : List (Item × Pos)) :
    (s.behindAll items).errors = s.errors := by
  induction items generalizing s with
  | nil => rfl
  | cons x items ih => exact ih (s.behind x.1 x.2)

theorem TokenStream.ofTokens_eof_kind (ts : List Token) : (TokenStream.ofTokens ts).eof.kind = .eof := by
  simp only [TokenStream.ofTokens]
  split
  · split
    · assumption
    · rfl
  · rfl

/-! ## The round trip -/

/-- A program that is written as tokens is read as itself up to numbers and places, without an error,
and the table of functions lists the places of their prototypes and of their first definitions. -/
theorem parse_reads_print (spell : NodeId → List Token) (types : List String) (p : Program)
    (hp : p.Writable spell types) (ts rest : List Token) (hts : ts.map Token.bare = p.print spell)
    (hrest : firstKind rest .eof = .eof) :
    (parse types (ts ++ rest)).program.map Item.shape = p.map Item.shape ∧
    (parse types (ts ++ rest)).diagnostics = [] ∧
    PrototypeEntry.Lists (p.starts spell ts) (parse types (ts ++ rest)).prototypes := by
  let start : ParserState := { stream := .ofTokens (ts ++ rest), engineTypes := types }
  have heof : start.stream.eof.kind = .eof := TokenStream.ofTokens_eof_kind _
  have hlen : ts.length = (p.print spell).length := by rw [← hts, length_map]
  have hsteps : 8 * (p.print spell).length + 1 ≤ parseSteps (ts ++ rest) := by
    rw [parseSteps, length_append]
    omega
  have hahead : start.ahead rest = .eof := by rw [ParserState.ahead, heof, hrest]
  obtain ⟨p', id, hitems, hshape⟩ :=
    Parser.items_print (s := start) hp hsteps hts hahead 0
  have hparse : parse types (ts ++ rest) = ⟨p', (start.behindAll (p.starts spell ts)).prototypes, id,
      (start.behindAll (p.starts spell ts)).errors.reverse⟩ := by
    have hstart : start.facing (ts ++ rest) 0 = start := rfl
    rw [hstart] at hitems
    simp only [parse]
    rw [show Parser.items (parseSteps (ts ++ rest)) _ = _ from hitems]
    rfl
  rw [hparse]
  refine ⟨hshape, ?_, start.behindAll_lists rfl _⟩
  rw [Parsed.diagnostics, start.behindAll_errors]
  rfl

/-- A definition of an engine type, a prototype and a function with an if inside an if, each token on a
line of its own. -/
theorem parse_reads_print_effect :
    let head : FunctionDecl := { pos := {}, ret := .engine "effect", name := "f", params := [] }
    let e : VarDecl := ⟨{}, false, .engine "effect", [⟨.none, "e", none⟩]⟩
    let p : Program :=
      [.defineLine {} "ENGINE_STRUCTURE_0" "effect", .prototype head,
        .function head [.var {} e, .ifElse {} (.ident .none "a")
          (.block {} [.ifThen {} (.ident .none "b") (.empty {})]) (.ret {} (some (.ident .none "e")))]]
    let ts := (p.print fun _ => []).zipIdx.map fun x => { x.1 with pos := { line := x.2 } }
    p.Writable (fun _ => []) [] ∧
    (parse [] ts).program.map Item.shape = p ∧ (parse [] ts).diagnostics = [] ∧
    PrototypeEntry.Lists (p.zip [{ line := 0 }, { line := 1 }, { line := 6 }])
      (parse [] ts).prototypes := by
  intro head e p ts
  have hname (name : String) : (Expr.ident .none name).Writable fun _ => [] := by
    simp [Expr.Writable, Expr.parts, Expr.RootWritable]
  have hhead : head.Writable ["effect"] fun _ => [] :=
    ⟨by simp [head, TypeSpec.Known], by simp [head], [], [], rfl, by simp, by simp⟩
  have he : e.Writable ["effect"] fun _ => [] :=
    ⟨by simp [e, TypeSpec.Known], by simp [e], by simp [e]⟩
  have htypes : (Item.defineLine {} "ENGINE_STRUCTURE_0" "effect").typesBehind [] = ["effect"] := by
    decide
  have hp : p.Writable (fun _ => []) [] := by
    refine ⟨⟨by simp [Text.isBlank], by decide⟩, ?_⟩
    rw [htypes]
    refine ⟨hhead, ⟨hhead, ⟨rfl, he⟩, ?_, trivial⟩, trivial⟩
    simp [Stmt.Writable, Stmt.WritableAll, Stmt.endsOpen, hname]
  have hts : ts.map Token.bare = p.print fun _ => [] := rfl
  have hstarts : p.starts (fun _ => []) ts = p.zip [{ line := 0 }, { line := 1 }, { line := 6 }] := rfl
  obtain ⟨hshape, hdiag, hlists⟩ := parse_reads_print (fun _ => []) [] p hp ts [] hts rfl
  rw [append_nil] at hshape hdiag hlists
  rw [hstarts] at hlists
  exact ⟨hp, hshape, hdiag, hlists⟩

end Nwscript
