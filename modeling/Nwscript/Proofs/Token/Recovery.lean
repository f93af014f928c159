import Nwscript.Proofs.Token.Coverage

/-! # Going on after an error

After an error a lexer stands at the end of the line, and what it reads from there is what it reads
from the rest of the text alone: scanning looks at places only to carry them along. So each line is
reported at most once. -/

open List

namespace Nwscript

/-! ## Shifted places -/

structure Shift where
  bytes : Nat
  lines : Nat

def Place.shifted (d : Shift) (p : Place) : Place := ⟨p.offset + d.bytes, p.line + d.lines, p.column⟩

def Pos.shifted (d : Shift) (p : Pos) : Pos := { p with line := p.line + d.lines }

def Span.shifted (d : Shift) (s : Span) : Span := ⟨s.start + d.bytes, s.stop + d.bytes⟩

def Token.shifted (d : Shift) (t : Token) : Token :=
  { t with span := t.span.shifted d, pos := t.pos.shifted d }

def LexError.shifted (d : Shift) (e : LexError) : LexError := { e with pos := e.pos.shifted d }

def shiftedResult (d : Shift) : Except LexError Token → Except LexError Token
  | .ok t => .ok (t.shifted d)
  | .error e => .error (e.shifted d)

def Cursor.shifted (d : Shift) (c : Cursor) : Cursor := ⟨c.rest, c.place.shifted d⟩

def readShifted {α : Type} (d : Shift) (r : α × Cursor) : α × Cursor := (r.1, r.2.shifted d)

variable {file : FileId} {d : Shift}

theorem Place.shifted_step (d : Shift) (p : Place) (c : Char) :
    (p.shifted d).step c = (p.step c).shifted d := by
  unfold step
  split <;> simp only [shifted, Place.mk.injEq, and_true] <;> omega

/-! ## Scanning further on -/

namespace Cursor

theorem skipFrom_shifted (p : Char → Bool) (cs : List Char) (place : Place) :
    skipFrom p cs (place.shifted d) = (skipFrom p cs place).shifted d := by
  induction cs generalizing place with
  | nil => rfl
  | cons x cs ih =>
    simp only [skipFrom, Place.shifted_step, ih]
    split <;> rfl

variable (c c' : Cursor)

@[simp] theorem rest_shifted : (c.shifted d).rest = c.rest := rfl

@[simp] theorem first_shifted : (c.shifted d).first = c.first := rfl

@[simp] theorem skipWhile_shifted (p : Char → Bool) :
    (c.shifted d).skipWhile p = (c.skipWhile p).shifted d := skipFrom_shifted p c.rest c.place

@[simp] theorem lineEnd_shifted : (c.shifted d).lineEnd = c.lineEnd.shifted d := c.skipWhile_shifted _

@[simp] theorem bump_shifted : (c.shifted d).bump = c.bump.shifted d := by
  simp only [bump, rest_shifted]
  split
  · rfl
  · rw [shifted, Place.shifted_step]
    rfl

@[simp] theorem bumpMany_shifted (n : Nat) : (c.shifted d).bumpMany n = (c.bumpMany n).shifted d := by
  induction n generalizing c with
  | zero => rfl
  | succ n ih => rw [bumpMany, bump_shifted, ih, bumpMany]

@[simp] theorem textTo_shifted : (c.shifted d).textTo (c'.shifted d) = c.textTo c' := by
  simp only [textTo, shifted, Place.shifted, Nat.add_sub_add_right]

end Cursor

def Gap.shifted (d : Shift) : Gap → Gap
  | .blockComment opened => .blockComment (opened.shifted d)
  | gap => gap

theorem skipGap_shifted (cs : List Char) (gap : Gap) (p : Place) :
    skipGap cs (gap.shifted d) (p.shifted d) =
      ((skipGap cs gap p).1.mapError (Place.shifted d), (skipGap cs gap p).2.shifted d) := by
  fun_induction skipGap cs gap p with
  | case1 => rfl
  | case2 gap p h =>
    cases gap with
    | blockComment opened => exact absurd rfl (h opened)
    | space | lineComment => rfl
  | case5 c rest p ih =>
    rw [← ih, Gap.shifted, skipGap, Place.shifted_step]
    · split <;> rfl
    · simp
  | case3 | case4 | case6 | case7 | case8 | case9 =>
    simp_all [skipGap, Gap.shifted, Place.shifted_step, Except.mapError, Cursor.shifted]

theorem scanRadix_shifted (isDigit : Char → Bool) (fault : NumberFault) (c : Cursor) :
    scanRadix isDigit fault (c.shifted d) = readShifted d (scanRadix isDigit fault c) := by
  simp only [scanRadix, Cursor.skipWhile_shifted, readShifted]
  simp only [Cursor.shifted, Place.shifted, Nat.add_right_cancel_iff]

theorem scanDecimal_shifted (c : Cursor) :
    scanDecimal (c.shifted d) = readShifted d (scanDecimal c) := by
  simp only [scanDecimal, Cursor.skipWhile_shifted, Cursor.first_shifted, Cursor.bump_shifted]
  by_cases hdot : (c.skipWhile Decimal.isDigit).first = '.' <;>
    simp only [hdot, if_true, if_false, Cursor.first_shifted, Cursor.bump_shifted] <;>
    split <;> rfl

theorem scanNumberForm_shifted (c : Cursor) :
    scanNumberForm (c.shifted d) = readShifted d (scanNumberForm c) := by
  unfold scanNumberForm
  simp only [Cursor.rest_shifted, Cursor.bumpMany_shifted, scanRadix_shifted, scanDecimal_shifted]
  split <;> rfl

theorem scanNumber_shifted (c : Cursor) : scanNumber (c.shifted d) = readShifted d (scanNumber c) := by
  unfold scanNumber
  rw [scanNumberForm_shifted]
  cases h : scanNumberForm c with
  | mk form stop =>
    cases form with
    | error fault => rfl
    | ok kind =>
      simp only [readShifted, Cursor.first_shifted, Cursor.skipWhile_shifted, Cursor.textTo_shifted]
      split
      · rfl
      · split <;> rfl

theorem scanString_shifted (cs : List Char) (p : Place) :
    scanString cs (p.shifted d) = readShifted d (scanString cs p) := by
  fun_induction scanString cs p <;>
    simp_all +zetaDelta [scanString, Place.shifted_step, readShifted, Cursor.shifted]

theorem scanDirective_shifted (c : Cursor) : scanDirective (c.shifted d) =
      ((scanDirective c).1.map fun r => (r.1, r.2.1, r.2.2.shifted d),
        (scanDirective c).2.shifted d) := by
  simp only [scanDirective, Cursor.skipWhile_shifted, Cursor.textTo_shifted, Cursor.first_shifted,
    Cursor.bump_shifted, Cursor.lineEnd_shifted]
  split
  · split
    · split <;> rfl
    · rfl
  · split
    · split
      · rfl
      · simp only [Except.map, Span.shifted, Cursor.shifted, Place.shifted, Nat.add_right_comm]
    · rfl

def shiftedRead (d : Shift) (r : Except LexError Token × Cursor) : Except LexError Token × Cursor :=
  (shiftedResult d r.1, r.2.shifted d)

theorem tokenTo_shifted (start stop : Cursor) (kind : TokenKind) :
    tokenTo file (start.shifted d) (stop.shifted d) kind =
      (tokenTo file start stop kind).shifted d := by
  simp only [tokenTo, Cursor.textTo_shifted]
  rfl

theorem failAt_shifted (start stop : Cursor) (fault : LexFault) :
    failAt file (start.shifted d) (stop.shifted d) fault =
      shiftedRead d (failAt file start stop fault) := by
  simp only [failAt, Cursor.lineEnd_shifted]
  rfl

theorem scanLexeme_shifted (x : Char) (c : Cursor) :
    scanLexeme file x (c.shifted d) = shiftedRead d (scanLexeme file x c) := by
  unfold scanLexeme
  simp only [Cursor.bump_shifted, Cursor.first_shifted, scanNumber_shifted, scanDirective_shifted,
    Cursor.skipWhile_shifted, Cursor.textTo_shifted, Cursor.rest_shifted, Cursor.bumpMany_shifted,
    tokenTo_shifted, failAt_shifted]
  split
  · cases h : scanNumber c with
    | mk r stop =>
      cases r with
      | error fault => simp only [readShifted, Cursor.textTo_shifted, failAt_shifted]
      | ok kind =>
        simp only [readShifted, tokenTo_shifted]
        rfl
  · split
    · rw [Cursor.shifted, scanString_shifted]
      cases h : scanString c.bump.rest c.bump.place with
      | mk r stop =>
        cases r with
        | error fault => exact failAt_shifted c stop fault
        | ok u =>
          show (Except.ok (tokenTo file (c.shifted d) (stop.shifted d) .stringLit), _) = _
          rw [tokenTo_shifted]
          rfl
    · split
      · cases h : scanDirective c.bump with
        | mk r stop =>
          cases r with
          | error fault => exact failAt_shifted c stop _
          | ok r => rfl
      · split
        · rfl
        · cases h : Symbol.lead? c.rest <;> rfl

theorem scanToken_shifted (c : Cursor) :
    scanToken file (c.shifted d) = shiftedRead d (scanToken file c) := by
  have hgap : skipGap (c.shifted d).rest .space (c.shifted d).place = _ :=
    skipGap_shifted c.rest .space c.place
  unfold scanToken
  rw [hgap]
  cases h : skipGap c.rest .space c.place with
  | mk r start =>
    cases r with
    | error opened => rfl
    | ok u =>
      simp only [Except.mapError, Cursor.rest_shifted]
      split
      · rw [tokenTo_shifted]
        rfl
      · exact scanLexeme_shifted _ start

/-- From the end of a line on, the text is read as one of its own. -/
theorem scanToken_lineEnd (rest before : List Char) :
    scanToken file ⟨'\n' :: rest, ({} : Place).past before⟩ =
      shiftedRead ⟨Text.utf8Length before, before.count '\n'⟩ (scanToken file ⟨'\n' :: rest, {}⟩) := by
  have hline (p : Place) : scanToken file ⟨'\n' :: rest, p⟩ = scanToken file ⟨rest, p.step '\n'⟩ := by
    unfold scanToken
    rw [show skipGap ('\n' :: rest) .space p = skipGap rest .space (p.step '\n') by simp [skipGap, isSpace]]
  rw [hline, hline, ← scanToken_shifted, Place.past_start]
  simp only [Cursor.shifted, Place.shifted, Place.step, if_true]
  congr 3 <;> omega

/-! ## Asking again -/

namespace Lexer

variable {l l' : Lexer} {rs rs' pre post : List (Except LexError Token)}

theorem next?_some {r : Except LexError Token} (h : l.next? = (some r, l')) :
    l.done = false ∧ scanToken l.file l.cursor = (r, l'.cursor) ∧
      l' = { l with cursor := l'.cursor, done := isEnd r } := by
  cases hd : l.done with
  | true =>
    rw [next?_done hd] at h
    cases (Prod.mk.inj h).1
  | false =>
    rw [next?_eq hd] at h
    obtain ⟨hr, rfl⟩ := Prod.mk.inj h
    cases hr
    exact ⟨rfl, rfl, rfl⟩

def asked (l : Lexer) : Nat → Lexer
  | 0 => l
  | n + 1 => l.next?.2.asked n

theorem Yields.asked (h : l.Yields (pre ++ post)) : (l.asked pre.length).Yields post := by
  induction pre generalizing l with
  | nil => exact h
  | cons r pre ih =>
    cases h with
    | more hnext hrest =>
      rw [length_cons, Lexer.asked, hnext]
      exact ih hrest

theorem asked_succ (l : Lexer) (n : Nat) : l.asked (n + 1) = (l.asked n).next?.2 := by
  induction n generalizing l with
  | zero => rfl
  | succ n ih => exact ih l.next?.2

theorem Yields.unique (h : l.Yields rs) (h' : l.Yields rs') : rs = rs' := by
  induction h generalizing rs' with
  | done hnext =>
    cases h' with
    | done _ => rfl
    | more hnext' _ => cases (Prod.mk.inj (hnext.symm.trans hnext')).1
  | more hnext _ ih =>
    cases h' with
    | done hnext' => cases (Prod.mk.inj (hnext.symm.trans hnext')).1
    | more hnext' hrest =>
      obtain ⟨hr, rfl⟩ := Prod.mk.inj (hnext.symm.trans hnext')
      rw [Option.some.inj hr, ih hrest]

@[simp] theorem isEnd_shiftedResult (r : Except LexError Token) :
    isEnd (shiftedResult d r) = isEnd r := by
  cases r <;> rfl

/-- A lexer yields further on what it yields. The first time it may stand where it reads the same. -/
theorem Yields.shifted (h : l.Yields rs) (hfile : l'.file = l.file) (hdone : l'.done = l.done)
    (hread : scanToken l.file l'.cursor = shiftedRead d (scanToken l.file l.cursor)) :
    l'.Yields (rs.map (shiftedResult d)) := by
  induction h generalizing l' with
  | @done l _ hnext =>
    cases hd : l.done with
    | true => exact .done (next?_done (hdone.trans hd))
    | false =>
      rw [next?_eq hd] at hnext
      cases (Prod.mk.inj hnext).1
  | @more l l₁ r rs hnext _ ih =>
    obtain ⟨hd, hscan, hl₁⟩ := next?_some hnext
    have hnext' := next?_eq (hdone.trans hd)
    rw [hfile, hread, hscan] at hnext'
    refine .more hnext' (ih (by rw [hl₁]) ?_ ?_)
    · rw [hl₁]
      exact isEnd_shiftedResult r
    · exact scanToken_shifted _

theorem Yields.at_end (h : l.Yields rs) (hrest : l.cursor.rest = []) (hdone : l.done = false) :
    ∃ eof, eof.kind = .eof ∧ rs = [.ok eof] := by
  have hscan : scanToken l.file l.cursor =
      (.ok (tokenTo l.file l.cursor l.cursor .eof), l.cursor) := by
    unfold scanToken
    rw [hrest, ← hrest]
    simp [skipGap, hrest, show (⟨[], l.cursor.place⟩ : Cursor) = l.cursor by rw [← hrest]]
  have hnext := next?_eq hdone
  rw [hscan] at hnext
  exact ⟨_, rfl, h.unique (.more hnext (.done (next?_done rfl)))⟩

def Placed (before : List Char) (l : Lexer) (text : List Char) : Prop :=
  text = before ++ l.cursor.rest ∧ l.cursor.place = ({} : Place).past before

theorem asked_placed (text : String) (file : FileId) (n : Nat) : ((new text file).asked n).file = file ∧
      ∃ before, Placed before ((new text file).asked n) text.toList := by
  induction n with
  | zero => exact ⟨rfl, [], rfl, rfl⟩
  | succ n ih =>
    obtain ⟨hfile, before, htext, hplace⟩ := ih
    rw [asked_succ]
    cases hd : ((new text file).asked n).done with
    | true =>
      rw [next?_done hd]
      exact ⟨hfile, before, htext, hplace⟩
    | false =>
      rw [next?_eq hd]
      obtain ⟨cs, hpast, -⟩ := past_scanToken file hplace
      rw [hfile]
      refine ⟨rfl, before ++ cs, ?_, hpast.place_behind hplace⟩
      rw [htext, hpast.rest, append_assoc]

end Lexer

/-! ## Errors -/

def errorLine? : Except LexError Token → Option Nat
  | .ok _ => none
  | .error e => if e.fault = .unterminatedComment then none else some e.pos.line

/-- Errors stand on lines of their own: none on the line that was given up before. -/
theorem Laid.lines {before : List Char} {pieces : List Piece} (h : Laid file before pieces) :
    (∀ n ∈ (pieces.filterMap Piece.result?).filterMap errorLine?, 1 + before.count '\n' ≤ n ∧
      (AtLineEnd (pieces.flatMap Piece.chars) → 1 + before.count '\n' < n)) ∧
    ((pieces.filterMap Piece.result?).filterMap errorLine?).Pairwise (· < ·) := by
  induction pieces generalizing before with
  | nil => exact ⟨by simp, .nil⟩
  | cons p pieces ih =>
    obtain ⟨hlater, hpair⟩ := ih h.2
    -- A piece without such an error moves on; if the text is at a line end, it is passed or comes next.
    have hpass : ∀ n ∈ (pieces.filterMap Piece.result?).filterMap errorLine?,
        1 + before.count '\n' ≤ n ∧
          (AtLineEnd (p.chars ++ pieces.flatMap Piece.chars) → 1 + before.count '\n' < n) := by
      intro n hn
      obtain ⟨hle, hlt⟩ := hlater n hn
      rw [count_append] at hle hlt
      refine ⟨by omega, fun hend => ?_⟩
      cases hp : p.chars with
      | nil =>
        rw [hp] at hend hlt
        exact hlt hend
      | cons x cs =>
        rw [hp] at hend hle
        obtain rfl : x = '\n' := by simpa [AtLineEnd] using hend
        rw [count_cons_self] at hle
        omega
    cases p with
    | gap cs => exact ⟨hpass, hpair⟩
    | token lead text tail t => exact ⟨hpass, hpair⟩
    | error cs e =>
      by_cases hfault : e.fault = .unterminatedComment
      · simpa [Piece.result?, errorLine?, hfault] using And.intro hpass hpair
      · obtain ⟨hpos, hright⟩ := h.1
        rw [if_neg hfault] at hright
        obtain ⟨⟨x, rest, hcs, -⟩, hline, hend⟩ := hright
        have hthis : e.pos.line = 1 + before.count '\n' := by rw [hpos]; rfl
        have hnone : (before ++ cs).count '\n' = before.count '\n' := by
          rw [count_append, count_eq_zero.mpr hline, Nat.add_zero]
        simp only [filterMap_cons_some (show Piece.result? (.error cs e) = some (.error e) from rfl),
          filterMap_cons_some (show errorLine? (.error e) = some e.pos.line from if_neg hfault),
          mem_cons, pairwise_cons]
        refine ⟨?_, fun n hn => ?_, hpair⟩
        · rintro n (rfl | hn)
          · refine ⟨hthis.ge, fun hstart => ?_⟩
            subst hcs
            obtain rfl : x = '\n' := by simpa [AtLineEnd, Piece.chars] using hstart
            exact absurd mem_cons_self hline
          · exact hpass n hn
        · have hlt := (hlater n hn).2 hend
          rw [show Piece.chars (.error cs e) = cs from rfl, hnone] at hlt
          rw [hthis]
          exact hlt

/-- Where a lexer stands after an error: behind a stretch of one line, at its end. -/
theorem scanToken_error {c stop : Cursor} {e : LexError} {before : List Char}
    (hc : c.place = ({} : Place).past before) (h : scanToken file c = (.error e, stop))
    (hfault : e.fault ≠ .unterminatedComment) :
    ∃ gap line, '\n' ∉ line ∧ AtLineEnd stop.rest ∧ e.pos = posBehind file (before ++ gap) ∧
      c.Past (gap ++ line) stop := by
  obtain ⟨gap, start, -, hstart, piece, hresult, hright, hpast⟩ := readsPiece_scanToken file hc
  rw [h] at hresult hright hpast
  cases piece with
  | gap cs => cases hresult
  | token lead text tail t => cases hresult
  | error cs e' =>
    obtain rfl : e' = e := Except.error.inj (Option.some.inj hresult)
    obtain ⟨hpos, hline⟩ := hright
    rw [if_neg hfault] at hline
    exact ⟨gap, cs, hline.2.1, hline.2.2, hpos, hstart.trans hpast⟩

/-- **An error gives up the rest of its line and no more.** The lexer then stands at the first line end
behind the place of the error, or at the end of the text, where only the token of the end is left. What
it yields from a line end on is what it yields for the rest of the text alone, as many bytes and lines
further on. The lines of the errors increase. A comment that is not closed is no such error. -/
theorem lex_recovers (text : String) (file : FileId) :
    (∀ pre e post, lex text file = pre ++ .error e :: post → e.fault ≠ .unterminatedComment →
      ∃ before line after, text.toList = before ++ (line ++ after) ∧
        e.pos = posBehind file before ∧ '\n' ∉ line ∧ AtLineEnd after ∧
        ((Lexer.new text file).asked (pre.length + 1)).cursor =
          ⟨after, ({} : Place).past (before ++ line)⟩ ∧
        (after = [] → ∃ eof, eof.kind = .eof ∧ post = [.ok eof]) ∧
        (after ≠ [] → post = (lex (String.ofList after) file).map
          (shiftedResult ⟨Text.utf8Length (before ++ line), (before ++ line).count '\n'⟩))) ∧
    ((lex text file).filterMap errorLine?).Pairwise (· < ·) := by
  have hyields := Lexer.yields_lex text file
  refine ⟨fun pre e post hlex hfault => ?_, ?_⟩
  · rw [hlex] at hyields
    obtain ⟨hfile, before, htext, hplace⟩ := Lexer.asked_placed text file pre.length
    have herror := hyields.asked
    rw [Lexer.asked_succ]
    generalize (Lexer.new text file).asked pre.length = l at hfile htext hplace herror
    cases herror with
    | @more _ l' _ _ hnext hpost =>
      obtain ⟨-, hscan, hl'⟩ := Lexer.next?_some hnext
      rw [hfile] at hscan
      obtain ⟨gap, line, hline, hend, hpos, hpast⟩ := scanToken_error hplace hscan hfault
      have hstop : l'.cursor = ⟨l'.cursor.rest, ({} : Place).past (before ++ gap ++ line)⟩ := by
        rw [append_assoc, Place.past_append, ← hplace, ← hpast.place]
      rw [hnext]
      refine ⟨before ++ gap, line, l'.cursor.rest, ?_, hpos, hline, hend, hstop, ?_, ?_⟩
      · rw [htext, hpast.rest]
        simp
      · intro hafter
        exact hpost.at_end hafter (by rw [hl']; rfl)
      · intro hafter
        obtain ⟨rest, hrest⟩ : ∃ rest, l'.cursor.rest = '\n' :: rest := by
          cases hr : l'.cursor.rest with
          | nil => exact absurd hr hafter
          | cons x rest => exact ⟨rest, by simpa [AtLineEnd, hr] using hend⟩
        refine hpost.unique ((Lexer.yields_lex (String.ofList l'.cursor.rest) file).shifted ?_ ?_ ?_)
        · rw [hl', ← hfile]
          rfl
        · rw [hl']
          rfl
        · rw [hstop, hrest]
          simp only [Lexer.new, String.toList_ofList]
          exact scanToken_lineEnd rest _
  · obtain ⟨pieces, -, hresults, hlaid⟩ :=
      hyields.laid (by simp [Lexer.new]) (Place.past_nil {}).symm
    rw [← hresults]
    exact hlaid.lines.2

end Nwscript
