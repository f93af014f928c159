import Nwscript.Proofs.Code.Calls
import Nwscript.Proofs.Blind.Check
import Nwscript.Proofs.Print.Reading

/-! # Linking programs without errors

The labels in generated code are in order. The strings that come from expressions of a program without
errors were checked for their length. Defaults of parameters are evaluated before that check, and so a
long default is the one thing that can still keep the code of such a program from being linked. -/

namespace Nwscript

open Gen

def Analysis.ShortValues (a : Analysis) : Prop := ∀ e v, a.valueOf e = some v → v.IsShort

/-! ## Strings -/

def ShortStrings (a : Analysis) (ops : List Op) : Prop :=
  ∀ bytes, .instr (.const (.string bytes)) ∈ ops →
    bytes.length ≤ maxStringLength ∨ a.IsDefault (.string bytes)

theorem Sites.shortStrings {Γ : CodeEnv} {f : Frame} {exprs : List Expr} {ops : List Op}
    (h : Sites (LineSite Γ f exprs) ops) (hvalues : Γ.ctx.analysis.ShortValues) :
    ShortStrings Γ.ctx.analysis ops := by
  intro bytes hmem
  obtain ⟨before, after, hsplit⟩ := List.append_of_mem hmem
  obtain ⟨outer, own, -, ⟨e, he⟩ | hdefault⟩ := h before _ after hsplit
  · exact .inl (hvalues e _ he)
  · exact .inr hdefault

section Program

variable {c : GenContext} {items : Program} {A : Assembly} (h : MarkedCode c items A) (hc : c.Ok)
  (hvalues : c.analysis.ShortValues)

include h hc hvalues

theorem MarkedCode.shortStrings_function {p : PlacedRoutine} (hp : p ∈ A.functions) :
    ShortStrings c.analysis p.routine.ops := by
  obtain ⟨-, -, -, -, -, -, -, -, -, -, Γ, f, rfl, -, hsites⟩ := h.callee hc hp
  exact hsites.shortStrings hvalues

theorem MarkedCode.shortStrings_globals {r : Routine} (hr : A.init = some r) :
    ShortStrings c.analysis r.ops := by
  have hmarks := h.marks_nodup (r := r) (by simp [Assembly.routines, hr])
  cases h.init r hr with
  | @mk label cells depth inits call _ _ _ hinits hcall =>
    have hsites := (@InitsCode.passage_globals _ _ _ _ _ (fun _ => True) _ _ _ _ hc
      (fun _ _ _ _ => trivial) hinits hmarks).sites
    have hcells (bytes : Bytes) : Op.instr (.const (.string bytes)) ∉ reserveOps cells := by
      simp [reserveOps]
    have hentry (bytes : Bytes) : Op.instr (.const (.string bytes)) ∉ call := by
      generalize A.entry = entry at hcall
      cases hcall <;> simp
    intro bytes hmem
    refine hsites.shortStrings hvalues bytes ?_
    simpa [hcells, hentry] using hmem

theorem MarkedCode.shortStrings : ShortStrings c.analysis A.lines := by
  intro bytes hmem
  obtain ⟨r, hr, hmem⟩ := List.mem_flatMap.mp hmem
  simp only [Assembly.routines, List.mem_append, List.mem_singleton, Option.mem_toList,
    List.mem_map] at hr
  rcases hr with (rfl | hr) | ⟨p, hp, rfl⟩
  · have hresult : Op.instr (.const (.string bytes)) ∉ loaderResult A.entry := by
      unfold loaderResult
      split
      · split <;> simp
      · simp
    have hcall : Op.instr (.const (.string bytes)) ∉ loaderCall A.entry (A.init.map Routine.label) := by
      unfold loaderCall
      split <;> simp
    simp [Assembly.loader, hresult, hcall] at hmem
  · exact h.shortStrings_globals hc hvalues hr bytes hmem
  · exact h.shortStrings_function hc hvalues hp bytes hmem

end Program

/-! ## Programs -/

namespace Accepted

variable {engine : EngineTable} {program : Program}

theorem shortStrings (h : Accepted engine program)
    (hsmall : (check engine program).analysis.structs.Small) {code : Code}
    (hcode : generate engine program (check engine program).analysis = .ok code) :
    ShortStrings (check engine program).analysis code.lines := by
  obtain ⟨A, hroutines, hentry, hA⟩ := h.markedCode hsmall hcode
  have hlines : code.lines = A.lines := by rw [Code.lines, hroutines, Assembly.lines]
  rw [hlines]
  exact hA.shortStrings (h.contextOk hsmall) fun e v hv => check_values engine program hv

/-- **Only a default of a parameter can keep the code of a program without errors from being linked.**
All other strings in the code are short enough for an object. -/
theorem link_or_long_default (h : Accepted engine program)
    (hsmall : (check engine program).analysis.structs.Small) {code : Code}
    (hcode : generate engine program (check engine program).analysis = .ok code) :
    (∀ bytes, .instr (.const (.string bytes)) ∈ code.lines → bytes.length ≤ 65535 ∨
      (check engine program).analysis.IsDefault (.string bytes)) ∧
    ((∃ o, link code = .ok o) ∨ ∃ bytes,
      (check engine program).analysis.IsDefault (.string bytes) ∧ 65535 < bytes.length ∧
      link code = .error (.stringTooLong bytes.length)) := by
  have hstrings := h.shortStrings hsmall hcode
  refine ⟨hstrings, ?_⟩
  rcases (labelled_of_generate hcode).link_cases with hok | ⟨bytes, hmem, hlong, herror⟩
  · exact .inl hok
  · refine .inr ⟨bytes, ?_, hlong, herror⟩
    rcases hstrings bytes hmem with hshort | hdefault
    · exact absurd hlong (Nat.not_lt.mpr hshort)
    · exact hdefault

theorem link_or_long_default_sample : ∃ code,
    generate Sample.engine Sample.program (check Sample.engine Sample.program).analysis = .ok code ∧
    ((∃ o, link code = .ok o) ∨ ∃ bytes,
      (check Sample.engine Sample.program).analysis.IsDefault (.string bytes) ∧ 65535 < bytes.length ∧
      link code = .error (.stringTooLong bytes.length)) := by
  obtain ⟨code, hcode⟩ := Sample.generated
  exact ⟨code, hcode, (link_or_long_default Sample.accepted Sample.small hcode).2⟩

end Accepted

/-! ## A long default

A function whose parameter has a default that is too long, and an entry function that leaves the argument
out. The bytes of the default are kept as a variable, since nothing looks at them before they are
linked. -/

namespace Sample

def token (kind : TokenKind) (text : String) : Token := { kind, text, span := {}, pos := {} }

def symbolToken (s : Symbol) : Token := token (.symbol s) ""

def nameToken (text : String) : Token := token .ident text

def callTokens : List Token :=
  [token (.keyword .kwVoid) "void", token .ident "main", token (.symbol .leftParen) "(",
    token (.symbol .rightParen) ")", token (.symbol .leftBrace) "\x7b", token .ident "f",
    token (.symbol .leftParen) "(", token (.symbol .rightParen) ")", token (.symbol .semicolon) ";",
    token (.symbol .rightBrace) "\x7d", token .eof ""]

def paramTokens (text : String) (rest : List Token) : List Token :=
  token (.keyword .kwString) "string" :: token .ident "s" :: token (.symbol .eq) "=" ::
    token .stringLit text :: token (.symbol .rightParen) ")" :: rest

def defaultTokens (text : String) : List Token :=
  [token (.keyword .kwVoid) "void", token .ident "f", token (.symbol .leftParen) "("] ++
    paramTokens text ([token (.symbol .leftBrace) "\x7b", token (.symbol .rightBrace) "\x7d"] ++ callTokens)

def defaultParam (bytes : Bytes) : Param := ⟨⟨1, {}⟩, .string, "s", some (.literal ⟨0, {}⟩ (.string bytes))⟩

def defaultItem (bytes : Bytes) : Item :=
  .function ⟨{}, .void, "f", [defaultParam bytes]⟩ []

def callItem : Item := .function ⟨{}, .void, "main", []⟩ [.expr {} (.call ⟨2, {}⟩ "f" [])]

def defaultProgram (bytes : Bytes) : Program := [defaultItem bytes, callItem]

def reading (rest : List Token) (id : Nat) (known : List PrototypeEntry) : ParserState :=
  { stream := ⟨rest, token .eof ""⟩, nextId := id, prototypes := known }

section Steps

open Nwscript.Parser

theorem peek_reading (t : Token) (ws : List Token) (id : Nat) (known : List PrototypeEntry) :
    peek (reading (t :: ws) id known) = .ok t (reading (t :: ws) id known) := rfl

theorem ident_reading (name : String) (ws : List Token) (id : Nat) (known : List PrototypeEntry) :
    ident (reading (token .ident name :: ws) id known) = .ok (name, {}) (reading ws id known) := rfl

theorem conditional_stringLit (text : String) (rest : List Token) (n id : Nat)
    (known : List PrototypeEntry) :
    conditional (n + 6)
      (reading (token .stringLit text :: token (.symbol .rightParen) ")" :: rest) id known) =
    .ok (.literal ⟨id, {}⟩ (.string (Literal.unescape (Literal.stringBody text.toList))))
      (reading (token (.symbol .rightParen) ")" :: rest) (id + 1) known) := rfl

theorem afterEquals_default (text : String) (rest : List Token) (n : Nat) :
    afterEquals (conditional (n + 6)) (reading (token (.symbol .eq) "=" ::
      token .stringLit text :: token (.symbol .rightParen) ")" :: rest) 0 []) =
    .ok (defaultParam (Literal.unescape (Literal.stringBody text.toList))).default
      (reading (token (.symbol .rightParen) ")" :: rest) 1 []) := by
  have haccept (ws : List Token) :
      acceptSymbol .eq (reading (token (.symbol .eq) "=" :: ws) 0 []) = .ok true (reading ws 0 []) := rfl
  rw [afterEquals, bind_ok (haccept _), if_pos rfl]
  simp only [Functor.map, EStateM.map, conditional_stringLit]
  rfl

theorem paramList_default (text : String) (rest : List Token) (n : Nat) :
    paramList (n + 7) (reading (paramTokens text rest) 0 []) =
      .ok [defaultParam (Literal.unescape (Literal.stringBody text.toList))] (reading rest 2 []) := by
  have htype (ws : List Token) : typeSpec (reading (token (.keyword .kwString) "string" :: ws) 0 []) =
    .ok .string (reading ws 0 []) := rfl
  rw [paramTokens, paramList, bind_ok (peek_reading ..), bind_ok (htype _), bind_ok (ident_reading ..)]
  exact (bind_ok (afterEquals_default text rest n)).trans rfl

theorem params_default (text : String) (rest : List Token) (n : Nat) :
    params (n + 7) (reading (token (.symbol .leftParen) "(" :: paramTokens text rest) 0 []) =
      .ok [defaultParam (Literal.unescape (Literal.stringBody text.toList))] (reading rest 2 []) := by
  have hopen (ws : List Token) : symbol .leftParen
      (reading (token (.symbol .leftParen) "(" :: ws) 0 []) =
    .ok (token (.symbol .leftParen) "(") (reading ws 0 []) := rfl
  have hskip : skipVoid (reading (paramTokens text rest) 0 []) =
    .ok () (reading (paramTokens text rest) 0 []) := rfl
  have hmore : acceptSymbol .rightParen (reading (paramTokens text rest) 0 []) =
    .ok false (reading (paramTokens text rest) 0 []) := rfl
  rw [params, bind_ok (hopen _), bind_ok hskip, paramsToEnd, bind_assoc, bind_ok hmore,
    if_neg Bool.false_ne_true, bind_ok (paramList_default ..)]
  rfl

theorem function_default (text : String) (n : Nat) :
    functionOrVariable {} (n + 10) (reading (defaultTokens text) 0 []) =
      .ok (defaultItem (Literal.unescape (Literal.stringBody text.toList)))
        (reading callTokens 2 (PrototypeEntry.recordDefinition "f" {} [])) := by
  have htype (ws : List Token) : typeSpec (reading (token (.keyword .kwVoid) "void" :: ws) 0 []) =
    .ok .void (reading ws 0 []) := rfl
  have hkind (t : Token) (ws : List Token) :
      peekKind (reading (t :: ws) 0 []) = .ok t.kind (reading (t :: ws) 0 []) := rfl
  have hrest : Parser.function {} .void "f" (n + 10)
      (reading (token (.symbol .leftParen) "(" :: paramTokens text ([token (.symbol .leftBrace) "\x7b",
        token (.symbol .rightBrace) "\x7d"] ++ callTokens)) 0 []) =
      .ok (defaultItem (Literal.unescape (Literal.stringBody text.toList)))
        (reading callTokens 2 (PrototypeEntry.recordDefinition "f" {} [])) := by
    rw [Parser.function, bind_ok (params_default text _ (n + 3))]
    rfl
  rw [functionOrVariable]
  exact (bind_ok (htype _)).trans
    ((bind_ok (ident_reading ..)).trans ((bind_ok (hkind _ _)).trans hrest))

theorem item_default (text : String) (n : Nat) :
    item (n + 10) (reading (defaultTokens text) 0 []) =
      .ok (some (defaultItem (Literal.unescape (Literal.stringBody text.toList))))
        (reading callTokens 2 (PrototypeEntry.recordDefinition "f" {} [])) := by
  rw [item]
  exact (bind_ok (peek_reading ..)).trans ((bind_ok (function_default text n)).trans rfl)

set_option maxRecDepth 20000 in
theorem item_call (known : List PrototypeEntry) :
    item 366 (reading callTokens 2 known) =
      .ok (some callItem)
        (reading [token .eof ""] 3 (PrototypeEntry.recordDefinition "main" {} known)) := by
  cbv

theorem items_cons {n : Nat} {s s' s'' : ParserState} {i : Item} {rest : Program}
    (hmore : s.stream.peekKind ≠ .eof) (hitem : item n s = .ok (some i) s')
    (hrest : items n s' = .ok rest s'') : items (n + 1) s = .ok (i :: rest) s'' := by
  have hrecover : recovering true (item n) s = .ok (some (some i)) s' := by
    simp [recovering, tryCatch, tryCatchThe, MonadExceptOf.tryCatch, EStateM.tryCatch, Functor.map,
      EStateM.map, hitem]
  have hkind : peekKind s = .ok s.stream.peekKind s := rfl
  simp [items, Bind.bind, EStateM.bind, Pure.pure, EStateM.pure, hkind, hmore, hrecover, hrest]

end Steps

theorem parse_default (text : String) :
    (parse engine.typeNames (defaultTokens text)).errors = [] ∧
    (parse engine.typeNames (defaultTokens text)).program =
      defaultProgram (Literal.unescape (Literal.stringBody text.toList)) := by
  have hend (known : List PrototypeEntry) : Parser.items 366 (reading [token .eof ""] 3 known) =
      .ok [] (reading [token .eof ""] 3 known) := rfl
  have hcall := items_cons (by decide) (item_call (PrototypeEntry.recordDefinition "f" {} [])) (hend _)
  have hitems := items_cons (by simp [reading, defaultTokens, token, TokenStream.peekKind, TokenStream.peek])
    (item_default text 357) hcall
  have hstart : Parser.items (parseSteps (defaultTokens text))
      { stream := .ofTokens (defaultTokens text), engineTypes := engine.typeNames } = _ := hitems
  simp only [parse, hstart]
  exact ⟨rfl, rfl⟩

def defaultAnalysis (bytes : Bytes) : Analysis where
  types := ⟨[(2, .void)]⟩
  decls := ⟨[(1, 0)]⟩
  calls := ⟨[(2, .user 0)]⟩
  vars := #[⟨"s", .string, .param, false, none, {}⟩]
  functions := #[⟨"f", .void, [⟨"s", .string, some (.string bytes)⟩], true, {}⟩,
    ⟨"main", .void, [], true, {}⟩]
  definitions := [(1, 1), (0, 0)]
  entry := some ⟨1, .main⟩

section Stages

open Check

def declaredDefault (bytes : Bytes) : CheckState where
  analysis :=
    { functions := #[⟨"f", .void, [⟨"s", .string, some (.string bytes)⟩], true, {}⟩,
        ⟨"main", .void, [], true, {}⟩]
      definitions := [(1, 1), (0, 0)] }

def checkedDefault (bytes : Bytes) : CheckState where
  analysis := { defaultAnalysis bytes with entry := none }

theorem collect_default (bytes : Bytes) :
    (collect engine (defaultProgram bytes) {}).2 = declaredDefault bytes := by cbv

theorem checkItems_default (bytes : Bytes) :
    (checkItems engine 0 (defaultProgram bytes) (declaredDefault bytes)).2 = checkedDefault bytes := by cbv

theorem checkEntry_default (bytes : Bytes) : (checkEntry (checkedDefault bytes)).2 =
    { checkedDefault bytes with analysis := defaultAnalysis bytes } := by
  simp [checkEntry, candidate, checkCandidate, EntryKind.name, EntryKind.ret, Analysis.function?,
    checkedDefault, defaultAnalysis, List.findIdx?_cons, analysis, record, Bind.bind, StateT.bind, Pure.pure,
    StateT.pure, modify, modifyGet, MonadStateOf.modifyGet, StateT.modifyGet, get, getThe, MonadStateOf.get,
    StateT.get]

theorem check_default (bytes : Bytes) :
    check engine (defaultProgram bytes) = ⟨defaultAnalysis bytes, [], false⟩ := by
  have hstages : (checkProgram engine (defaultProgram bytes) {}).2 =
      { checkedDefault bytes with analysis := defaultAnalysis bytes } := by
    show (checkEntry (checkItems engine 0 (defaultProgram bytes)
      (collect engine (defaultProgram bytes) {}).2).2).2 = _
    rw [collect_default, checkItems_default, checkEntry_default]
  show Checked.mk (checkProgram engine (defaultProgram bytes) {}).2.analysis
    (checkProgram engine (defaultProgram bytes) {}).2.findings.reverse
    (checkProgram engine (defaultProgram bytes) {}).2.stuck = _
  rw [hstages]
  rfl

end Stages

def longText (n : Nat) : String := String.ofList ('"' :: (List.replicate n 'a' ++ ['"']))

theorem length_unescapeAfter (n : Nat) (done : Bytes) :
    (Literal.unescapeAfter (List.replicate n 'a') done).length = n + done.length := by
  induction n generalizing done with
  | zero => simp [Literal.unescapeAfter]
  | succ n ih =>
    have hstep : Literal.unescapeAfter (List.replicate (n + 1) 'a') done =
        Literal.unescapeAfter (List.replicate n 'a') (97 :: done) := rfl
    rw [hstep, ih, List.length_cons]
    omega

def longBytes (n : Nat) : Bytes := Literal.unescape (Literal.stringBody (longText n).toList)

theorem length_longBytes (n : Nat) : (longBytes n).length = n := by
  have hbody : Literal.stringBody (longText n).toList = List.replicate n 'a' := by
    simp [Literal.stringBody, longText]
  rw [longBytes, hbody, Literal.unescape, length_unescapeAfter]
  simp

theorem accepted_default (n : Nat) : Accepted engine (defaultProgram (longBytes n)) where
  table := ⟨_, _, engine_ofSource⟩
  parsed := ⟨defaultTokens (longText n), parse_default (longText n)⟩
  checked := by simp [check_default]

theorem default_mem_of_exprCode {Γ : CodeEnv} {f : Frame} {locals : List (VarId × Int)} {d d' : Int}
    {ops : List Op} {bytes : Bytes}
    (ha : Γ.ctx.analysis = defaultAnalysis bytes)
    (h : ExprCode Γ f locals (.expr (.call ⟨2, {}⟩ "f" [])) d ops d') :
    .instr (.const (.string bytes)) ∈ ops := by
  cases h with
  | constant hv =>
    rw [ha] at hv
    cases hv
  | engineCall hcall _ _ =>
    rw [ha] at hcall
    cases hcall
  | userCall hcall hinfo _ hargs =>
    rw [ha] at hcall hinfo
    obtain rfl : 0 = _ := Callee.user.inj (Option.some.inj hcall)
    cases hinfo
    cases hargs with
    | default hdefault _ _ =>
      cases hdefault
      simp [constantOps]

theorem default_mem_lines {bytes : Bytes} {A : Assembly}
    (h : MarkedCode (Accepted.context engine (defaultProgram bytes)) (defaultProgram bytes) A) :
    .instr (.const (.string bytes)) ∈ A.lines := by
  have ha : (Accepted.context engine (defaultProgram bytes)).analysis = defaultAnalysis bytes := by
    rw [Accepted.context, check_default]
  have hentry := h.entry
  rw [ha] at hentry
  obtain ⟨⟨e, label⟩, he, rfl⟩ := Option.map_eq_some_iff.mp hentry
  obtain ⟨⟨func, index, r⟩, hp, rfl, -⟩ := h.called _ label (h.entryLabel _ label he)
  cases h.functions _ hp with
  | mk _ hindex hitem _ _ _ _ hcode =>
    rw [ha] at hindex
    obtain rfl : 1 = _ := Option.some.inj hindex
    obtain ⟨rfl, rfl⟩ := Item.function.inj (Option.some.inj hitem)
    cases hcode with
    | block hbody _ =>
      cases hbody with
      | stmts hfirst _ =>
        cases hfirst with
        | expr hcall =>
          obtain ⟨value, d, hvalue, -, rfl⟩ := hcall
          have hmem := default_mem_of_exprCode ha hvalue
          refine List.mem_flatMap.mpr ⟨_, List.mem_append_right _ (List.mem_map_of_mem hp), ?_⟩
          simp [hmem]

theorem generated_default : (generate engine (defaultProgram (longBytes 65536))
    (defaultAnalysis (longBytes 65536))).isOk = true := by
  decide +kernel

end Sample

/-- **A default that is too long passes all checks**, and then the code cannot be linked. -/
theorem Accepted.long_default_not_linked : ∃ program code bytes, Accepted Sample.engine program ∧
    (check Sample.engine program).analysis.structs.Small ∧
    generate Sample.engine program (check Sample.engine program).analysis = .ok code ∧
    .instr (.const (.string bytes)) ∈ code.lines ∧ bytes.length = 65536 ∧
    link code = .error (.stringTooLong 65536) := by
  have hsmall (bytes : Bytes) :
      (check Sample.engine (Sample.defaultProgram bytes)).analysis.structs.Small := by
    rw [Sample.check_default]
    exact fun d hd => absurd hd List.not_mem_nil
  have haccepted := Sample.accepted_default 65536
  have hlength := Sample.length_longBytes 65536
  have hok := Sample.generated_default
  cases hcode : generate Sample.engine (Sample.defaultProgram (Sample.longBytes 65536))
      (Sample.defaultAnalysis (Sample.longBytes 65536)) with
  | error fault =>
    rw [hcode] at hok
    cases hok
  | ok code =>
    have hgenerated : generate Sample.engine (Sample.defaultProgram (Sample.longBytes 65536))
        (check Sample.engine (Sample.defaultProgram (Sample.longBytes 65536))).analysis = .ok code := by
      rw [Sample.check_default, hcode]
    obtain ⟨A, hroutines, -, hA⟩ := haccepted.markedCode (hsmall _) hgenerated
    have hmem : .instr (.const (.string (Sample.longBytes 65536))) ∈ code.lines := by
      rw [Code.lines, hroutines]
      exact Sample.default_mem_lines hA
    refine ⟨_, code, _, haccepted, hsmall _, hgenerated, hmem, hlength, ?_⟩
    have hstrings := haccepted.shortStrings (hsmall _) hgenerated
    rcases (labelled_of_generate hgenerated).link_cases with ⟨o, ho⟩ | ⟨bytes, hbytes, hlong, herror⟩
    · obtain ⟨hlinkable, -⟩ := link_eq_ok.mp ho
      have hshort := hlinkable.strings _ hmem
      omega
    · rw [herror]
      rcases hstrings bytes hbytes with hshort | ⟨f, hf, p, hp, hdefault⟩
      · exact absurd hlong (Nat.not_lt.mpr hshort)
      · rw [Sample.check_default] at hf
        have hfunction :
            f = ⟨"f", .void, [⟨"s", .string, some (.string (Sample.longBytes 65536))⟩], true, {}⟩ ∨
              f = ⟨"main", .void, [], true, {}⟩ := by
          simpa [Sample.defaultAnalysis] using hf
        rcases hfunction with rfl | rfl
        · obtain rfl := List.mem_singleton.mp hp
          obtain rfl := Value.string.inj (Option.some.inj hdefault)
          rw [hlength]
        · cases hp

end Nwscript
