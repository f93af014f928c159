import Mathlib
import Nwscript.Token.Lexer

/-! # What a lexer reads

A text falls into pieces: gaps of space and comments, the characters read for a token, and the lines
given up after an error. A token stands where its characters stand, counted in bytes, lines and
columns, and its text is the stretch of its span. -/

open List hiding tail

namespace Nwscript

/-! ## Bytes and places -/

namespace Text

@[simp] theorem utf8Length_nil : utf8Length [] = 0 := rfl

theorem foldl_utf8Size (cs : List Char) (n : Nat) :
    cs.foldl (fun n c => n + c.utf8Size) n = n + utf8Length cs := by
  induction cs generalizing n with
  | nil => rfl
  | cons c cs ih =>
    have hcons : utf8Length (c :: cs) = cs.foldl (fun n c => n + c.utf8Size) (0 + c.utf8Size) := rfl
    rw [foldl_cons, ih, hcons, ih]
    omega

@[simp] theorem utf8Length_cons (c : Char) (cs : List Char) :
    utf8Length (c :: cs) = c.utf8Size + utf8Length cs := by
  rw [utf8Length, foldl_cons, foldl_utf8Size, Nat.zero_add]

@[simp] theorem utf8Length_append (cs ds : List Char) :
    utf8Length (cs ++ ds) = utf8Length cs + utf8Length ds := by
  rw [utf8Length, foldl_append, foldl_utf8Size, foldl_utf8Size, Nat.zero_add]

theorem utf8Length_toList (s : String) : utf8Length s.toList = s.utf8ByteSize := by
  have hsize (cs : List Char) : cs.utf8Encode.size = utf8Length cs := by
    induction cs with
    | nil => rfl
    | cons c cs ih =>
      rw [utf8Encode_cons, ByteArray.size_append, ih, utf8Length_cons,
        utf8Encode_singleton, size_toByteArray, String.length_utf8EncodeChar]
  rw [← hsize, ← String.toByteArray_ofList, String.ofList_toList, String.size_toByteArray]

theorem splitBytes_append (cs rest taken : List Char) :
    splitBytes (cs ++ rest) (utf8Length cs) taken = some (cs.reverse ++ taken, rest) := by
  induction cs generalizing taken with
  | nil => cases rest <;> simp [splitBytes]
  | cons c cs ih =>
    have hpos := c.utf8Size_pos
    rw [cons_append, splitBytes, utf8Length_cons, if_neg (by omega), if_pos (by omega),
      Nat.add_sub_cancel_left, ih]
    simp

end Text

namespace Place

def past (p : Place) (cs : List Char) : Place := cs.foldl step p

@[simp] theorem past_nil (p : Place) : p.past [] = p := rfl

@[simp] theorem past_cons (p : Place) (c : Char) (cs : List Char) :
    p.past (c :: cs) = (p.step c).past cs := rfl

theorem past_append (p : Place) (cs ds : List Char) : p.past (cs ++ ds) = (p.past cs).past ds :=
  foldl_append

theorem offset_step (p : Place) (c : Char) : (p.step c).offset = p.offset + c.utf8Size := by
  unfold step
  split <;> rfl

theorem offset_past (p : Place) (cs : List Char) :
    (p.past cs).offset = p.offset + Text.utf8Length cs := by
  induction cs generalizing p with
  | nil => rfl
  | cons c cs ih =>
    rw [past_cons, ih, offset_step, Text.utf8Length_cons]
    omega

end Place

def lastLineLength (cs : List Char) : Nat := (cs.reverse.takeWhile (· ≠ '\n')).length

/-- The position behind the characters in front of it: lines and columns count from 1. -/
def posBehind (file : FileId) (before : List Char) : Pos :=
  ⟨file, 1 + before.count '\n', 1 + lastLineLength before⟩

/-- Behind characters from the start the place is the number of their bytes, one more than their line
ends, and one more than the characters of their last line. -/
theorem Place.past_start (before : List Char) : ({} : Place).past before =
      ⟨Text.utf8Length before, 1 + before.count '\n', 1 + lastLineLength before⟩ := by
  induction before using List.reverseRecOn with
  | nil => rfl
  | append_singleton cs c ih =>
    rw [past_append, ih, past_cons, past_nil, step]
    split
    · next h =>
      subst h
      simp [lastLineLength]
      omega
    · next h =>
      simp [lastLineLength, h]
      omega

/-! ## Cursors -/

def AtLineEnd (cs : List Char) : Prop := cs = [] ∨ cs.head? = some '\n'

variable {cs rest before : List Char} {c stop : Cursor} {x : Char} {p : Place} {kind : TokenKind}
  {file : FileId}

namespace Cursor

structure Past (c : Cursor) (cs : List Char) (c' : Cursor) : Prop where
  rest : c.rest = cs ++ c'.rest
  place : c'.place = c.place.past cs

namespace Past

variable {c c' c'' : Cursor} {cs ds : List Char}

theorem refl (c : Cursor) : c.Past [] c := ⟨rfl, rfl⟩

theorem trans (h : c.Past cs c') (h' : c'.Past ds c'') : c.Past (cs ++ ds) c'' :=
  ⟨by rw [h.rest, h'.rest, append_assoc], by rw [h'.place, h.place, Place.past_append]⟩

theorem textTo (h : c.Past cs c') : c.textTo c' = cs := by
  have hbytes : c'.place.offset - c.place.offset = Text.utf8Length cs := by
    rw [h.place, Place.offset_past]
    omega
  rw [Cursor.textTo, hbytes, h.rest, Text.splitBytes_append]
  simp

theorem length_eq (h : c.Past cs c') : c.rest.length = cs.length + c'.rest.length := by
  rw [h.rest, length_append]

theorem place_behind (h : c.Past cs c') {before : List Char} (hc : c.place = ({} : Place).past before) :
    c'.place = ({} : Place).past (before ++ cs) := by
  rw [h.place, hc, Place.past_append]

end Past

theorem past_bump (h : c.rest = x :: rest) : c.Past [x] c.bump := by
  unfold bump
  rw [h]
  exact ⟨h, rfl⟩

theorem past_bumpMany (h : c.rest = cs ++ rest) : c.Past cs (c.bumpMany cs.length) := by
  induction cs generalizing c with
  | nil => exact .refl c
  | cons x cs ih =>
    have hbump := past_bump h
    have hrest : c.bump.rest = cs ++ rest := by simpa [h] using hbump.rest.symm
    exact hbump.trans (ih hrest)

theorem past_skipFrom (p : Char → Bool) (cs : List Char) (place : Place) :
    Past ⟨cs, place⟩ (cs.takeWhile p) (skipFrom p cs place) := by
  induction cs generalizing place with
  | nil => exact .refl _
  | cons x cs ih =>
    rw [skipFrom, takeWhile_cons]
    split
    · have hbump : Past ⟨x :: cs, place⟩ [x] ⟨cs, place.step x⟩ := ⟨rfl, rfl⟩
      exact hbump.trans (ih _)
    · exact .refl _

theorem past_skipWhile (p : Char → Bool) (c : Cursor) :
    c.Past (c.rest.takeWhile p) (c.skipWhile p) := past_skipFrom p c.rest c.place

/-- A run of characters ends at the end of the text or at a character that does not belong to it. -/
theorem skipWhile_rest (p : Char → Bool) (c : Cursor) : (c.skipWhile p).rest = c.rest.dropWhile p := by
  have h := (c.past_skipWhile p).rest
  conv_lhs at h => rw [← takeWhile_append_dropWhile (p := p) (l := c.rest)]
  exact (append_cancel_left h).symm

theorem skipWhile_of_pos {p : Char → Bool} (h : c.rest = x :: rest) (hx : p x = true) :
    c.skipWhile p = c.bump.skipWhile p := by
  rw [skipWhile, h, skipFrom, if_pos hx, bump, h]
  rfl

theorem rest_of_first (h : c.first = x) (hx : x ≠ '\x00') : ∃ rest, c.rest = x :: rest := by
  cases hr : c.rest with
  | nil => simp [first, hr] at h; exact absurd h.symm hx
  | cons y rest => simp [first, hr] at h; exact ⟨rest, by rw [h]⟩

def Along (c c' : Cursor) : Prop := ∃ cs, '\n' ∉ cs ∧ c.Past cs c'

namespace Along

variable {c c' c'' : Cursor}

theorem refl (c : Cursor) : c.Along c := ⟨[], not_mem_nil, .refl c⟩

theorem trans (h : c.Along c') (h' : c'.Along c'') : c.Along c'' := by
  obtain ⟨cs, hcs, h⟩ := h
  obtain ⟨ds, hds, h'⟩ := h'
  refine ⟨cs ++ ds, ?_, h.trans h'⟩
  rw [mem_append]
  exact not_or.mpr ⟨hcs, hds⟩

theorem bump (h : c.first ≠ '\n') : c.Along c.bump := by
  cases hr : c.rest with
  | nil =>
    rw [Cursor.bump, hr]
    exact refl c
  | cons x rest =>
    have hx : x ≠ '\n' := by simpa [first, hr] using h
    exact ⟨[x], by simp [Ne.symm hx], past_bump hr⟩

theorem skipWhile {p : Char → Bool} (hp : p '\n' = false) (c : Cursor) : c.Along (c.skipWhile p) := by
  refine ⟨_, fun h => ?_, c.past_skipWhile p⟩
  rw [mem_takeWhile_imp h] at hp
  cases hp

theorem lineEnd (c : Cursor) : c.Along c.lineEnd := skipWhile (by simp) c

end Along

theorem atLineEnd_lineEnd (c : Cursor) : AtLineEnd c.lineEnd.rest := by
  rw [lineEnd, skipWhile_rest]
  cases h : c.rest.dropWhile (· ≠ '\n') with
  | nil => exact .inl rfl
  | cons x rest =>
    have hx := head_dropWhile_not (fun x : Char => decide (x ≠ '\n')) (by rw [h]; simp)
    simp only [h, head_cons] at hx
    exact .inr (by simpa using hx)

end Cursor

open Cursor

/-! ## Space and comments -/

/-- Space and comments in front of `after`. A comment of a line ends with its line, any other with the
first mark that closes it. -/
inductive Trivia (after : List Char) : List Char → Prop
  | nil : Trivia after []
  | space {c : Char} {cs : List Char} : isSpace c = true → Trivia after cs → Trivia after (c :: cs)
  | line {body cs : List Char} : '\n' ∉ body → AtLineEnd (cs ++ after) → Trivia after cs →
      Trivia after ('/' :: '/' :: (body ++ cs))
  | block {body cs : List Char} : ¬['*', '/'] <:+: body → Trivia after cs →
      Trivia after ('/' :: '*' :: (body ++ '*' :: '/' :: cs))

theorem not_closed_cons {c : Char} (h : ¬['*', '/'] <:+: cs)
    (hc : ∀ rest, c = '*' → cs ≠ '/' :: rest) : ¬['*', '/'] <:+: c :: cs := by
  intro hin
  rcases infix_cons_iff.mp hin with ⟨tail, hlead⟩ | hin
  · obtain ⟨rfl, rfl⟩ := List.cons.inj hlead
    exact hc tail rfl rfl
  · exact h hin

def Gap.Left (after : List Char) : Gap → List Char → Prop
  | .space, cs => Trivia after cs
  | .lineComment, cs => ∃ body rest, cs = body ++ rest ∧ '\n' ∉ body ∧ AtLineEnd (rest ++ after) ∧
      Trivia after rest
  | .blockComment _, cs => ∃ body rest, cs = body ++ '*' :: '/' :: rest ∧ ¬['*', '/'] <:+: body ∧
      Trivia after rest

namespace Gap.Left

variable {after cs : List Char} {opened : Place}

theorem block_cons {c : Char} (h : (Gap.blockComment opened).Left after cs)
    (hc : ∀ rest, c = '*' → cs ++ after ≠ '/' :: rest) :
    (Gap.blockComment opened).Left after (c :: cs) := by
  obtain ⟨body, rest, rfl, hbody, hrest⟩ := h
  refine ⟨c :: body, rest, rfl, not_closed_cons hbody fun tail hstar hslash => ?_, hrest⟩
  exact hc _ hstar (by rw [hslash]; rfl)

theorem line_cons {c : Char} (h : (if c = '\n' then Gap.space else Gap.lineComment).Left after cs) :
    Gap.lineComment.Left after (c :: cs) := by
  split at h
  · next hc =>
    subst hc
    exact ⟨[], '\n' :: cs, rfl, not_mem_nil, .inr rfl, .space rfl h⟩
  · next hc =>
    obtain ⟨body, rest, rfl, hbody, hend, hrest⟩ := h
    exact ⟨c :: body, rest, rfl, by simp [hbody, Ne.symm hc], hend, hrest⟩

theorem slash_line (h : Gap.lineComment.Left after cs) : Trivia after ('/' :: '/' :: cs) := by
  obtain ⟨body, rest, rfl, hbody, hend, hrest⟩ := h
  exact .line hbody hend hrest

theorem slash_block (h : (Gap.blockComment opened).Left after cs) :
    Trivia after ('/' :: '*' :: cs) := by
  obtain ⟨body, rest, rfl, hbody, hrest⟩ := h
  exact .block hbody hrest

end Gap.Left

theorem skipGap_ok {gap : Gap} (h : skipGap cs gap p = (.ok (), stop)) :
    ∃ skipped, gap.Left stop.rest skipped ∧ Past ⟨cs, p⟩ skipped stop := by
  fun_induction skipGap cs gap p with
  | case1 => cases h
  | case2 gap p hgap =>
    obtain rfl := (Prod.mk.inj h).2
    cases gap with
    | space => exact ⟨[], .nil, .refl _⟩
    | lineComment => exact ⟨[], ⟨[], [], rfl, not_mem_nil, .inl rfl, .nil⟩, .refl _⟩
    | blockComment opened => exact absurd rfl (hgap opened)
  | case3 rest opened p ih =>
    obtain ⟨skipped, hleft, hpast⟩ := ih h
    exact ⟨'*' :: '/' :: skipped, ⟨[], skipped, rfl, by simp, hleft⟩,
      congrArg ('*' :: '/' :: ·) hpast.rest, hpast.place⟩
  | case4 c rest opened p hc ih =>
    obtain ⟨skipped, hleft, hpast⟩ := ih h
    refine ⟨c :: skipped, hleft.block_cons fun tail hstar hslash => ?_,
      congrArg (c :: ·) hpast.rest, hpast.place⟩
    exact hc tail hstar (hpast.rest.trans hslash)
  | case5 c rest p ih =>
    obtain ⟨skipped, hleft, hpast⟩ := ih h
    exact ⟨c :: skipped, hleft.line_cons, congrArg (c :: ·) hpast.rest, hpast.place⟩
  | case6 rest p ih =>
    obtain ⟨skipped, hleft, hpast⟩ := ih h
    exact ⟨'/' :: '/' :: skipped, hleft.slash_line, congrArg ('/' :: '/' :: ·) hpast.rest, hpast.place⟩
  | case7 rest p ih =>
    obtain ⟨skipped, hleft, hpast⟩ := ih h
    exact ⟨'/' :: '*' :: skipped, hleft.slash_block, congrArg ('/' :: '*' :: ·) hpast.rest, hpast.place⟩
  | case8 c rest p _ _ hc ih =>
    obtain ⟨skipped, hleft, hpast⟩ := ih h
    exact ⟨c :: skipped, .space hc hleft, congrArg (c :: ·) hpast.rest, hpast.place⟩
  | case9 c rest p _ _ _ =>
    obtain rfl := (Prod.mk.inj h).2
    exact ⟨[], .nil, .refl _⟩

/-- A comment that is not closed begins behind space and comments, or is the one the scan stands in. -/
theorem skipGap_open {gap : Gap} {opened : Place} (h : skipGap cs gap p = (.error opened, stop)) :
    (∃ skipped body, gap.Left ('/' :: '*' :: body) skipped ∧ cs = skipped ++ '/' :: '*' :: body ∧
      opened = p.past skipped ∧ ¬['*', '/'] <:+: body) ∨
      gap = .blockComment opened ∧ ¬['*', '/'] <:+: cs := by
  fun_induction skipGap cs gap p with
  | case1 o p =>
    obtain rfl := Except.error.inj (Prod.mk.inj h).1
    exact .inr ⟨rfl, by simp⟩
  | case2 gap p hgap => cases h
  | case3 rest o p ih =>
    rcases ih h with ⟨skipped, body, hleft, rfl, rfl, hbody⟩ | ⟨hgap, -⟩
    · exact .inl ⟨'*' :: '/' :: skipped, body, ⟨[], skipped, rfl, by simp, hleft⟩, rfl, rfl, hbody⟩
    · cases hgap
  | case4 c rest o p hc ih =>
    rcases ih h with ⟨skipped, body, hleft, rfl, rfl, hbody⟩ | ⟨hgap, hbody⟩
    · exact .inl ⟨c :: skipped, body, hleft.block_cons hc, rfl, rfl, hbody⟩
    · exact .inr ⟨hgap, not_closed_cons hbody hc⟩
  | case5 c rest p ih =>
    rcases ih h with ⟨skipped, body, hleft, rfl, rfl, hbody⟩ | ⟨hgap, -⟩
    · exact .inl ⟨c :: skipped, body, hleft.line_cons, rfl, rfl, hbody⟩
    · split at hgap <;> cases hgap
  | case6 rest p ih =>
    rcases ih h with ⟨skipped, body, hleft, rfl, rfl, hbody⟩ | ⟨hgap, -⟩
    · exact .inl ⟨'/' :: '/' :: skipped, body, hleft.slash_line, rfl, rfl, hbody⟩
    · cases hgap
  | case7 rest p ih =>
    rcases ih h with ⟨skipped, body, hleft, rfl, rfl, hbody⟩ | ⟨hgap, hbody⟩
    · exact .inl ⟨'/' :: '*' :: skipped, body, hleft.slash_block, rfl, rfl, hbody⟩
    · obtain rfl := Gap.blockComment.inj hgap
      exact .inl ⟨[], rest, .nil, rfl, rfl, hbody⟩
  | case8 c rest p _ _ hc ih =>
    rcases ih h with ⟨skipped, body, hleft, rfl, rfl, hbody⟩ | ⟨hgap, -⟩
    · exact .inl ⟨c :: skipped, body, .space hc hleft, rfl, rfl, hbody⟩
    · cases hgap
  | case9 c rest p _ _ _ => cases h

theorem skipGap_error_stop {gap : Gap} {opened : Place}
    (h : skipGap cs gap p = (.error opened, stop)) : stop = ⟨[], p.past cs⟩ := by
  fun_induction skipGap cs gap p <;> simp_all [Place.past_cons]

theorem skipGap_first {gap : Gap} (h : skipGap cs gap p = (.ok (), stop))
    (hx : stop.rest = x :: rest) : isSpace x = false := by
  fun_induction skipGap cs gap p <;> grind

/-! ## Numbers and strings -/

theorem along_scanDecimal (h : c.rest = x :: rest) (hx : Decimal.isDigit x = true ∨ x = '.') :
    c.bump.Along (scanDecimal c).2 := by
  have hsuffix (kind : TokenKind) (stop : Cursor) :
      stop.Along (if stop.first = 'f' || stop.first = 'F' then (TokenKind.floatLit, stop.bump)
        else (kind, stop)).2 := by
    split
    · next hf =>
      refine .bump fun hline => ?_
      simp [hline] at hf
    · exact .refl stop
  have hdigits (c : Cursor) : c.Along (c.skipWhile Decimal.isDigit) := .skipWhile rfl c
  unfold scanDecimal
  -- Either digits are read before the point, or the point is.
  rcases hx with hx | rfl
  · have hwhole : c.bump.Along (c.skipWhile Decimal.isDigit) := by
      rw [skipWhile_of_pos h hx]
      exact hdigits _
    by_cases hdot : (c.skipWhile Decimal.isDigit).first = '.'
    · have hpoint := Along.bump (c := c.skipWhile Decimal.isDigit) (by rw [hdot]; decide)
      simp only [hdot, if_true]
      exact (hwhole.trans (hpoint.trans (hdigits _))).trans (hsuffix _ _)
    · simp only [hdot, if_false]
      exact hwhole.trans (hsuffix _ _)
  · have hnone : c.skipWhile Decimal.isDigit = c := by
      rw [skipWhile, h, skipFrom, if_neg (by decide), ← h]
    have hfirst : c.first = '.' := by simp [first, h]
    simp only [hnone, hfirst, if_true]
    exact (hdigits _).trans (hsuffix _ _)

theorem along_scanNumberForm (h : c.rest = x :: rest) (hx : Decimal.isDigit x = true ∨ x = '.') :
    c.bump.Along (scanNumberForm c).2 := by
  have hradix {a b : Char} {rest : List Char} (h : c.rest = a :: b :: rest) (hb : b ≠ '\n')
      {isDigit : Char → Bool} (hd : isDigit '\n' = false) (fault : NumberFault) :
      c.bump.Along (scanRadix isDigit fault (c.bumpMany 2)).2 := by
    have hfirst : c.bump.first = b := by simp [bump, h, first]
    exact (Along.bump (hfirst ▸ hb)).trans (.skipWhile hd _)
  unfold scanNumberForm
  split
  · next h => exact hradix h (by decide) rfl _
  · next h => exact hradix h (by decide) rfl _
  · next h => exact hradix h (by decide) rfl _
  · next h => exact hradix h (by decide) rfl _
  · exact along_scanDecimal h hx

theorem along_scanNumber (h : c.rest = x :: rest) (hx : Decimal.isDigit x = true ∨ x = '.') :
    c.bump.Along (scanNumber c).2 := by
  have hform := along_scanNumberForm h hx
  unfold scanNumber
  split
  · next h => rwa [h] at hform
  · next kind stop h =>
    rw [h] at hform
    split
    · exact hform.trans (.skipWhile rfl stop)
    · split <;> exact hform

theorem scanNumber_kind {c stop : Cursor} {kind : TokenKind} (h : scanNumber c = (.ok kind, stop)) :
    kind = .intLit ∨ kind = .floatLit := by
  have hdecimal : (scanDecimal c).1 = .intLit ∨ (scanDecimal c).1 = .floatLit := by
    unfold scanDecimal
    grind
  have hradix (isDigit : Char → Bool) (fault : NumberFault) (c : Cursor) (kind : TokenKind)
      (hk : (scanRadix isDigit fault c).1 = .ok kind) : kind = .intLit := by
    unfold scanRadix at hk
    grind
  have hform (kind : TokenKind) (hk : (scanNumberForm c).1 = .ok kind) :
      kind = .intLit ∨ kind = .floatLit := by
    unfold scanNumberForm at hk
    split at hk
    · exact .inl (hradix _ _ _ _ hk)
    · exact .inl (hradix _ _ _ _ hk)
    · exact .inl (hradix _ _ _ _ hk)
    · exact .inl (hradix _ _ _ _ hk)
    · exact Except.ok.inj hk ▸ hdecimal
  unfold scanNumber at h
  split at h
  · cases (Prod.mk.inj h).1
  · next hstop =>
    refine hform kind ?_
    rw [hstop]
    grind

theorem along_scanString (cs : List Char) (p : Place) : Along ⟨cs, p⟩ (scanString cs p).2 := by
  have hread (cs : List Char) (hcs : '\n' ∉ cs) (rest : List Char) (p : Place) :
      Along ⟨cs ++ rest, p⟩ ⟨rest, p.past cs⟩ := ⟨cs, hcs, rfl, rfl⟩
  -- Every character read is named, or told apart from the line end.
  fun_induction scanString cs p with
  | case1 | case3 => exact .refl _
  | case2 rest p => exact hread ['"'] (by decide) rest p
  | case4 p => exact hread ['\\'] (by decide) [] p
  | case5 a b rest p behind hhex ih =>
    rw [Bool.and_eq_true] at hhex
    have hline : '\n' ∉ ['\\', 'x', a, b] := by
      have ha : '\n' ≠ a := fun h => absurd (h ▸ hhex.1) (by decide)
      have hb : '\n' ≠ b := fun h => absurd (h ▸ hhex.2) (by decide)
      simp [ha, hb]
    exact (hread ['\\', 'x', a, b] hline rest p).trans ih
  | case6 a b rest p _ _ => exact hread ['\\', 'x'] (by decide) (a :: b :: rest) p
  | case7 rest p _ => exact hread ['\\', 'x'] (by decide) rest p
  | case8 c rest p _ _ hc ih =>
    have hline : '\n' ∉ ['\\', c] := by
      have hne : '\n' ≠ c := fun h => absurd (h ▸ hc) (by decide)
      simp [hne]
    exact (hread ['\\', c] hline rest p).trans ih
  | case9 c rest p _ _ _ => exact hread ['\\'] (by decide) (c :: rest) p
  | case10 c rest p _ hc _ _ _ _ ih =>
    have hline : '\n' ∉ [c] := by
      have hne : '\n' ≠ c := fun h => hc h.symm
      simp [hne]
    exact (hread [c] hline rest p).trans ih

theorem scanString_fault {fault : LexFault} (h : scanString cs p = (.error fault, stop)) :
    fault ≠ .unterminatedComment := by
  fun_induction scanString cs p <;> grind

theorem Symbol.lead?_spec {s : Symbol} (h : Symbol.lead? cs = some s) :
    ∃ rest, cs = s.chars ++ rest := by
  have hlead := find?_some h
  obtain ⟨rest, hrest⟩ := isPrefixOf_iff_prefix.mp hlead
  exact ⟨rest, hrest.symm⟩

/-! ## Directives -/

/-- How the text of a token of a kind stands in the characters read for it: what comes before the text
and behind it, and what follows. Only a directive has more than its text. -/
inductive Framed (after : List Char) : TokenKind → List Char → List Char → List Char → Prop
  | includeLine {blanks name : List Char} : (∀ c ∈ blanks, isInlineSpace c = true) →
      '"' ∉ name → '\n' ∉ name →
      Framed after .includeLine ('#' :: ("include".toList ++ blanks ++ ['"'])) name ['"']
  | defineLine {blanks value trail comment : List Char} : (∀ c ∈ blanks, isInlineSpace c = true) →
      value ≠ [] → '\n' ∉ value ++ (trail ++ comment) → (∀ c ∈ trail, Text.isBlank c = true) →
      comment = [] ∨ ['/', '/'] <+: comment → AtLineEnd after →
      Framed after .defineLine ('#' :: ("define".toList ++ blanks)) value (trail ++ comment)
  | plain {kind : TokenKind} {text : List Char} : kind ≠ .includeLine → kind ≠ .defineLine →
      '\n' ∉ text → Framed after kind [] text []

theorem along_scanDirective (c : Cursor) : c.Along (scanDirective c).2 := by
  have hword := Along.skipWhile (p := continuesName) rfl c
  have hbody := hword.trans (Along.skipWhile (p := isInlineSpace) rfl _)
  have hquote {c : Cursor} (h : c.first = '"') : c.Along c.bump := .bump (by rw [h]; decide)
  unfold scanDirective
  dsimp only
  split
  · split
    · next hopen =>
      have hname := (hbody.trans (hquote hopen)).trans
        (Along.skipWhile (p := fun x => x ≠ '"' && x ≠ '\n') rfl _)
      split
      · next hclose => exact hname.trans (hquote hclose)
      · exact hname
    · exact hbody
  · split
    · split
      · exact hbody.trans (.lineEnd _)
      · exact hbody.trans (.lineEnd _)
    · exact hword

theorem beforeComment_eq (cs taken : List Char) :
    ∃ kept comment, beforeComment cs taken = taken.reverse ++ kept ∧ cs = kept ++ comment ∧
      (comment = [] ∨ ['/', '/'] <+: comment) := by
  fun_induction beforeComment cs taken with
  | case1 taken => exact ⟨[], [], by simp, rfl, .inl rfl⟩
  | case2 rest taken => exact ⟨[], '/' :: '/' :: rest, by simp, rfl, .inr ⟨rest, rfl⟩⟩
  | case3 c rest taken _ ih =>
    obtain ⟨kept, comment, hkept, rfl, hcomment⟩ := ih
    exact ⟨c :: kept, comment, by rw [hkept]; simp, rfl, hcomment⟩

theorem trimEnd_eq (cs : List Char) :
    ∃ trail, cs = Text.trimEnd cs ++ trail ∧ ∀ c ∈ trail, Text.isBlank c = true := by
  refine ⟨(cs.reverse.takeWhile Text.isBlank).reverse, ?_, fun c hc => ?_⟩
  · rw [Text.trimEnd, ← reverse_append, takeWhile_append_dropWhile, reverse_reverse]
  · exact mem_takeWhile_imp (mem_reverse.mp hc)

def Frames (c stop : Cursor) (kind : TokenKind) (text : List Char) (span : Span) : Prop :=
  ∃ lead tail, Framed stop.rest kind ('#' :: lead) text tail ∧ c.Past (lead ++ (text ++ tail)) stop ∧
    span = ⟨(c.place.past lead).offset, (c.place.past (lead ++ text)).offset⟩

section Directives

variable {c body : Cursor} {blanks : List Char} (hspace : ∀ x ∈ blanks, isInlineSpace x = true)
include hspace

theorem frames_name (hbody : c.Past ("include".toList ++ blanks) body) (hopen : body.first = '"')
    (hclose : (body.bump.skipWhile fun x => x ≠ '"' && x ≠ '\n').first = '"') :
    Frames c (body.bump.skipWhile fun x => x ≠ '"' && x ≠ '\n').bump .includeLine
      (body.bump.textTo (body.bump.skipWhile fun x => x ≠ '"' && x ≠ '\n'))
      ⟨body.bump.place.offset,
        (body.bump.skipWhile fun x => x ≠ '"' && x ≠ '\n').place.offset⟩ := by
  obtain ⟨rest, hrest⟩ := rest_of_first hopen (by decide)
  obtain ⟨rest', hrest'⟩ := rest_of_first hclose (by decide)
  have hlead := hbody.trans (past_bump hrest)
  have hname := body.bump.past_skipWhile fun x => x ≠ '"' && x ≠ '\n'
  have hplain : ∀ x ∈ body.bump.rest.takeWhile fun x => x ≠ '"' && x ≠ '\n',
      x ≠ '"' ∧ x ≠ '\n' := by
    intro x hx
    simpa using mem_takeWhile_imp (p := fun x => x ≠ '"' && x ≠ '\n') hx
  rw [hname.textTo]
  refine ⟨_, ['"'], .includeLine hspace (fun hin => (hplain _ hin).1 rfl)
    (fun hin => (hplain _ hin).2 rfl), hlead.trans (hname.trans (past_bump hrest')), ?_⟩
  rw [hname.place, hlead.place, Place.past_append _ _ (List.takeWhile _ _)]

theorem frames_value (hbody : c.Past ("define".toList ++ blanks) body)
    (hvalue : Text.trimEnd (beforeComment (body.textTo body.lineEnd) []) ≠ []) :
    Frames c body.lineEnd .defineLine (Text.trimEnd (beforeComment (body.textTo body.lineEnd) []))
      ⟨body.place.offset, body.place.offset +
        Text.utf8Length (Text.trimEnd (beforeComment (body.textTo body.lineEnd) []))⟩ := by
  have hend := atLineEnd_lineEnd body
  obtain ⟨line, hplain, hline⟩ := Along.lineEnd body
  rw [hline.textTo] at hvalue ⊢
  obtain ⟨kept, comment, hkept, rfl, hcomment⟩ := beforeComment_eq line []
  obtain ⟨trail, htrail, hblank⟩ := trimEnd_eq kept
  rw [hkept, reverse_nil, nil_append] at hvalue ⊢
  generalize Text.trimEnd kept = value at htrail hvalue ⊢
  subst htrail
  rw [append_assoc] at hplain hline
  refine ⟨_, trail ++ comment, .defineLine hspace hvalue hplain hblank hcomment hend,
    hbody.trans hline, ?_⟩
  rw [hbody.place, Place.past_append _ _ value, Place.offset_past _ value]

end Directives

theorem scanDirective_frames {text : List Char} {span : Span}
    (h : scanDirective c = (.ok (kind, text, span), stop)) : Frames c stop kind text span := by
  have hword := c.past_skipWhile continuesName
  have hblanks := (c.skipWhile continuesName).past_skipWhile isInlineSpace
  have hspace : ∀ x ∈ (c.skipWhile continuesName).rest.takeWhile isInlineSpace,
      isInlineSpace x = true := fun x hx => mem_takeWhile_imp hx
  have hbody := hword.trans hblanks
  unfold scanDirective at h
  dsimp only at h
  rw [hword.textTo] at h
  generalize c.rest.takeWhile continuesName = word at h hbody
  generalize (c.skipWhile continuesName).skipWhile isInlineSpace = body at h hbody
  split at h
  · next hinclude =>
    obtain rfl : word = "include".toList := by rw [← hinclude, String.toList_ofList]
    split at h
    · next hopen =>
      split at h
      · next hclose =>
        cases h
        exact frames_name hspace hbody hopen hclose
      · cases (Prod.mk.inj h).1
    · cases (Prod.mk.inj h).1
  · split at h
    · next hdefine =>
      obtain rfl : word = "define".toList := by rw [← hdefine, String.toList_ofList]
      split at h
      · cases (Prod.mk.inj h).1
      · next hvalue =>
        cases h
        exact frames_value hspace hbody (by simpa using hvalue)
    · cases (Prod.mk.inj h).1

/-! ## Pieces -/

/-- A piece of a text: a gap, what is read for a token, or the line given up after an error. -/
inductive Piece where
  | gap (chars : List Char)
  | token (lead text tail : List Char) (t : Token)
  | error (chars : List Char) (e : LexError)

namespace Piece

def chars : Piece → List Char
  | gap cs => cs
  | token lead text tail _ => lead ++ (text ++ tail)
  | error cs _ => cs

def result? : Piece → Option (Except LexError Token)
  | gap _ => none
  | token _ _ _ t => some (.ok t)
  | error _ e => some (.error e)

/-- A piece is right between the characters before it and behind it. Tokens and errors stand at their
first character, and the span of a token is the stretch of its text; only the token of the end is read
from nothing. An error is at a character that no gap takes and gives up the rest of its line; a comment
that is not closed is given up to the end of the text. -/
def Right (file : FileId) (before after : List Char) : Piece → Prop
  | gap cs => Trivia after cs
  | token lead text tail t =>
    Framed after t.kind lead text tail ∧ t.text = String.ofList text ∧
      t.span = ⟨Text.utf8Length (before ++ lead), Text.utf8Length (before ++ lead ++ text)⟩ ∧
      t.pos = posBehind file before ∧
      if t.kind = .eof then after = [] ∧ text = [] else lead ++ (text ++ tail) ≠ []
  | error cs e =>
    e.pos = posBehind file before ∧
      if e.fault = .unterminatedComment then
        after = [] ∧ ∃ body, cs = '/' :: '*' :: body ∧ ¬['*', '/'] <:+: body
      else (∃ x rest, cs = x :: rest ∧ isSpace x = false) ∧ '\n' ∉ cs ∧ AtLineEnd after

end Piece

theorem Place.pos_past_start (file : FileId) (before : List Char) :
    (({} : Place).past before).pos file = posBehind file before := by
  rw [past_start]
  rfl

theorem Place.offset_past_start (before : List Char) :
    (({} : Place).past before).offset = Text.utf8Length before := by
  rw [past_start]

def ReadsPiece (file : FileId) (before : List Char) (c : Cursor)
    (r : Except LexError Token × Cursor) : Prop :=
  ∃ piece : Piece, piece.result? = some r.1 ∧ piece.Right file before r.2.rest ∧ c.Past piece.chars r.2

section Lexemes

variable {file : FileId} {before : List Char} {c stop : Cursor}

theorem readsPiece_tokenTo (hc : c.place = ({} : Place).past before) (hrest : c.rest = x :: rest)
    (hx : x ≠ '\n') (h : c.bump.Along stop) (hkind : kind ∉ [.includeLine, .defineLine, .eof]) :
    ReadsPiece file before c (.ok (tokenTo file c stop kind), stop) := by
  obtain ⟨cs, hcs, hpast⟩ := h
  have hline : '\n' ∉ [x] ++ cs := by simp [Ne.symm hx, hcs]
  replace hpast := (past_bump hrest).trans hpast
  simp only [mem_cons, not_mem_nil, or_false, not_or] at hkind
  refine ⟨.token [] ([x] ++ cs) [] (tokenTo file c stop kind), rfl,
    ⟨.plain hkind.1 hkind.2.1 hline, ?_, ?_, ?_, ?_⟩, by simpa [Piece.chars] using hpast⟩
  · rw [tokenTo, hpast.textTo]
  · rw [tokenTo, hpast.place, hc, ← Place.past_append, Place.offset_past_start,
      Place.offset_past_start, append_nil]
  · rw [tokenTo, hc, Place.pos_past_start]
  · simp [tokenTo, hkind.2.2]

theorem ne_newline_of_not_space (hx : isSpace x = false) : x ≠ '\n' := by
  rintro rfl
  exact absurd hx (by decide)

theorem readsPiece_failAt (hc : c.place = ({} : Place).past before) (hrest : c.rest = x :: rest)
    (hx : isSpace x = false) (h : c.bump.Along stop) {fault : LexFault}
    (hfault : fault ≠ .unterminatedComment) :
    ReadsPiece file before c (failAt file c stop fault) := by
  obtain ⟨cs, hcs, hpast⟩ := h.trans (.lineEnd stop)
  have hline : '\n' ∉ [x] ++ cs := by simp [Ne.symm (ne_newline_of_not_space hx), hcs]
  refine ⟨.error ([x] ++ cs) ⟨fault, c.place.pos file⟩, rfl, ⟨?_, ?_⟩, (past_bump hrest).trans hpast⟩
  · rw [hc, Place.pos_past_start]
  · rw [if_neg hfault]
    exact ⟨⟨x, cs, rfl, hx⟩, hline, atLineEnd_lineEnd stop⟩

theorem readsPiece_directive (hc : c.place = ({} : Place).past before)
    (hrest : c.rest = '#' :: rest) {text : List Char} {span : Span}
    (h : Frames c.bump stop kind text span) : ReadsPiece file before c
      (.ok { kind, text := String.ofList text, span, pos := c.place.pos file }, stop) := by
  have hbump := past_bump hrest
  obtain ⟨lead, tail, hframed, hpast, rfl⟩ := h
  refine ⟨.token ('#' :: lead) text tail _, rfl, ⟨hframed, rfl, ?_, ?_, ?_⟩, hbump.trans hpast⟩
  · simp only [hbump.place, hc, ← Place.past_append, Place.offset_past_start, cons_append,
      nil_append, append_assoc]
  · rw [hc, Place.pos_past_start]
  · have hkind : kind ≠ .eof := by cases hframed <;> nofun
    simp [hkind]

/-- What begins with a character is a token, or an error that gives up its line. -/
theorem readsPiece_scanLexeme (file : FileId) (hc : c.place = ({} : Place).past before)
    (hrest : c.rest = x :: rest) (hx : isSpace x = false) :
    ReadsPiece file before c (scanLexeme file x c) := by
  have hline := ne_newline_of_not_space hx
  unfold scanLexeme
  split
  · next hnum =>
    have hdigit : Decimal.isDigit x = true ∨ x = '.' := by
      rw [Bool.or_eq_true, Bool.and_eq_true, decide_eq_true_eq] at hnum
      exact hnum.imp id And.left
    have halong := along_scanNumber hrest hdigit
    split
    · next kind stop hstop =>
      have hkind := scanNumber_kind hstop
      rw [hstop] at halong
      refine readsPiece_tokenTo hc hrest hline halong ?_
      rcases hkind with rfl | rfl <;> decide
    · next fault stop hstop =>
      rw [hstop] at halong
      exact readsPiece_failAt hc hrest hx halong (by simp)
  · split
    · have halong := along_scanString c.bump.rest c.bump.place
      split
      · next stop hstop =>
        rw [hstop] at halong
        exact readsPiece_tokenTo hc hrest hline halong (by decide)
      · next fault stop hstop =>
        rw [hstop] at halong
        exact readsPiece_failAt hc hrest hx halong (scanString_fault hstop)
    · split
      · next hsign =>
        subst hsign
        have halong := along_scanDirective c.bump
        split
        · next hstop => exact readsPiece_directive hc hrest (scanDirective_frames hstop)
        · next fault stop hstop =>
          rw [hstop] at halong
          exact readsPiece_failAt hc hrest hx halong (by simp)
      · split
        · next hname =>
          have hcont : continuesName x = true := by
            simp only [startsName, Bool.or_eq_true] at hname
            simp only [continuesName, Bool.or_eq_true]
            exact Or.inl hname
          have halong : c.bump.Along (c.skipWhile continuesName) := by
            rw [skipWhile_of_pos hrest hcont]
            exact .skipWhile rfl _
          refine readsPiece_tokenTo hc hrest hline halong ?_
          unfold nameKind
          split <;> simp
        · split
          · next s hs =>
            obtain ⟨tail, htail⟩ := Symbol.lead?_spec hs
            have hmem : '\n' ∉ s.chars := by cases s <;> decide
            obtain ⟨y, ys, hchars⟩ : ∃ y ys, s.chars = y :: ys := by cases s <;> exact ⟨_, _, rfl⟩
            rw [hchars] at htail hmem ⊢
            have hbump : c.bump.rest = ys ++ tail := by simp [bump, htail]
            exact readsPiece_tokenTo hc hrest hline
              ⟨ys, fun hin => hmem (.tail _ hin), past_bumpMany hbump⟩ (by simp)
          · exact readsPiece_failAt hc hrest hx (.refl _) (by simp)

theorem readsPiece_scanToken (file : FileId) (hc : c.place = ({} : Place).past before) :
    ∃ gap start, Trivia start.rest gap ∧ c.Past gap start ∧
      ReadsPiece file (before ++ gap) start (scanToken file c) := by
  unfold scanToken
  split
  · next opened stop h =>
    obtain rfl := skipGap_error_stop h
    rcases skipGap_open h with ⟨gap, body, hgap, hrest, hopened, hbody⟩ | ⟨hgap, -⟩
    · refine ⟨gap, ⟨'/' :: '*' :: body, c.place.past gap⟩, hgap, ⟨hrest, rfl⟩,
        .error ('/' :: '*' :: body) _, rfl, ⟨?_, ?_⟩, ?_⟩
      · rw [hopened, hc, ← Place.past_append, Place.pos_past_start]
      · exact ⟨rfl, body, rfl, hbody⟩
      · refine ⟨(append_nil _).symm, ?_⟩
        rw [hrest, Place.past_append]
        rfl
    · cases hgap
  · next start h =>
    obtain ⟨gap, hgap, hpast⟩ := skipGap_ok h
    have hstart : start.place = ({} : Place).past (before ++ gap) := by
      rw [hpast.place, hc, Place.past_append]
    refine ⟨gap, start, hgap, hpast, ?_⟩
    split
    · next hrest =>
      refine ⟨.token [] [] [] (tokenTo file start start .eof), rfl,
        ⟨.plain nofun nofun not_mem_nil, ?_, ?_, ?_, ?_⟩, .refl start⟩
      · rw [tokenTo, (Past.refl start).textTo]
      · rw [tokenTo, hstart, Place.offset_past_start, append_nil, append_nil]
      · rw [tokenTo, hstart, Place.pos_past_start]
      · exact ⟨hrest, rfl⟩
    · next x rest hrest =>
      exact readsPiece_scanLexeme file hstart hrest (skipGap_first h hrest)

end Lexemes

theorem Piece.Right.end_empty {after : List Char} {p : Piece} (h : p.Right file before after)
    {t : Token} (hp : p.result? = some (.ok t)) (ht : t.kind = .eof) : after = [] ∧ p.chars = [] ∧
      t.span = ⟨Text.utf8Length before, Text.utf8Length before⟩ := by
  cases p with
  | gap cs => cases hp
  | error cs e => cases hp
  | token lead text tail u =>
    obtain rfl : u = t := by simpa [Piece.result?] using hp
    obtain ⟨hframed, -, hspan, -, hend⟩ := h
    rw [if_pos ht] at hend
    obtain ⟨hafter, rfl⟩ := hend
    rw [ht] at hframed
    cases hframed with
    | plain _ _ _ => exact ⟨hafter, rfl, by simpa using hspan⟩

def resultPos : Except LexError Token → Pos
  | .ok t => t.pos
  | .error e => e.pos

theorem Piece.Right.result {after : List Char} {p : Piece} (h : p.Right file before after)
    {r : Except LexError Token} (hp : p.result? = some r) :
    (resultPos r).file = file ∧ (Lexer.isEnd r = false → p.chars ≠ []) := by
  cases p with
  | gap cs => cases hp
  | token lead text tail t =>
    cases hp
    obtain ⟨-, -, -, hpos, htext⟩ := h
    refine ⟨congrArg Pos.file hpos, fun hend => ?_⟩
    rwa [if_neg (by simpa [Lexer.isEnd] using hend)] at htext
  | error cs e =>
    cases hp
    obtain ⟨hpos, hcs⟩ := h
    refine ⟨congrArg Pos.file hpos, fun _ => ?_⟩
    split at hcs
    · obtain ⟨-, body, rfl, -⟩ := hcs
      exact cons_ne_nil _ _
    · obtain ⟨⟨x, rest, rfl, -⟩, -⟩ := hcs
      exact cons_ne_nil x rest

theorem past_scanToken (file : FileId) (hc : c.place = ({} : Place).past before) :
    ∃ cs, c.Past cs (scanToken file c).2 ∧ (Lexer.isEnd (scanToken file c).1 = false → cs ≠ []) := by
  obtain ⟨gap, start, -, hstart, piece, hresult, hright, hpast⟩ := readsPiece_scanToken file hc
  refine ⟨_, hstart.trans hpast, fun hend hnil => ?_⟩
  exact (hright.result hresult).2 hend (append_eq_nil_iff.mp hnil).2

/-! ## Texts -/

def Laid (file : FileId) : List Char → List Piece → Prop
  | _, [] => True
  | before, p :: ps =>
    p.Right file before (ps.flatMap Piece.chars) ∧ Laid file (before ++ p.chars) ps

theorem Laid.right {pre post : List Piece} {p : Piece} (h : Laid file before (pre ++ p :: post)) :
    p.Right file (before ++ pre.flatMap Piece.chars) (post.flatMap Piece.chars) := by
  induction pre generalizing before with
  | nil => simpa using h.1
  | cons q pre ih => simpa using ih h.2

theorem Laid.spans {pieces : List Piece} (h : Laid file before pieces) :
    (∀ t ∈ keepTokens (pieces.filterMap Piece.result?), Text.utf8Length before ≤ t.span.start) ∧
      (keepTokens (pieces.filterMap Piece.result?)).Pairwise fun t u => t.span.stop ≤ u.span.start := by
  induction pieces generalizing before with
  | nil => exact ⟨nofun, .nil⟩
  | cons p pieces ih =>
    obtain ⟨hfrom, hpair⟩ := ih h.2
    have hlater : ∀ t ∈ keepTokens (pieces.filterMap Piece.result?),
        Text.utf8Length before ≤ t.span.start := by
      intro t ht
      have := hfrom t ht
      rw [Text.utf8Length_append] at this
      omega
    cases p with
    | gap cs => exact ⟨hlater, hpair⟩
    | error cs e => exact ⟨hlater, hpair⟩
    | token lead text tail t =>
      obtain ⟨-, -, hspan, -⟩ := h.1
      refine ⟨fun u hu => ?_, pairwise_cons.mpr ⟨fun u hu => ?_, hpair⟩⟩
      · rcases mem_cons.mp hu with rfl | hu
        · rw [hspan, Text.utf8Length_append]
          exact Nat.le_add_right _ _
        · exact hlater u hu
      · have := hfrom u hu
        rw [hspan]
        simp only [Piece.chars, Text.utf8Length_append] at this ⊢
        omega

namespace Lexer

/-- Asked again and again, a lexer yields these results and then no more. -/
inductive Yields : Lexer → List (Except LexError Token) → Prop
  | done {l l' : Lexer} : l.next? = (none, l') → Yields l []
  | more {l l' : Lexer} {r : Except LexError Token} {rs : List (Except LexError Token)} :
      l.next? = (some r, l') → Yields l' rs → Yields l (r :: rs)

variable {l : Lexer}

theorem next?_done (h : l.done = true) : l.next? = (none, l) := if_pos h

theorem next?_eq (h : l.done = false) : l.next? = (some (scanToken l.file l.cursor).1,
      { l with cursor := (scanToken l.file l.cursor).2,
               done := isEnd (scanToken l.file l.cursor).1 }) := by
  simp [next?, nextToken, h]

theorem collect_done {steps : Nat} {taken : List (Except LexError Token)} (h : l.done = true) :
    collect steps l taken = taken.reverse := by
  cases steps with
  | zero => rfl
  | succ steps => simp [collect, next?, h]

theorem yields_collect {steps : Nat} (taken : List (Except LexError Token))
    (hplace : l.cursor.place = ({} : Place).past before)
    (h : l.done = true ∨ l.cursor.rest.length < steps) :
    ∃ rs, collect steps l taken = taken.reverse ++ rs ∧ l.Yields rs := by
  induction steps generalizing l taken before with
  | zero =>
    have hdone : l.done = true := by simpa using h
    exact ⟨[], by simp [collect], .done (next?_done hdone)⟩
  | succ steps ih =>
    cases hdone : l.done with
    | true => exact ⟨[], by rw [collect_done hdone, append_nil], .done (next?_done hdone)⟩
    | false =>
      have hlen : l.cursor.rest.length < steps + 1 := by simpa [hdone] using h
      have hnext := next?_eq hdone
      obtain ⟨cs, hpast, hcs⟩ := past_scanToken l.file hplace
      obtain ⟨rs, hcollect, hyields⟩ := ih
        (l := { l with cursor := (scanToken l.file l.cursor).2,
                       done := isEnd (scanToken l.file l.cursor).1 })
        ((scanToken l.file l.cursor).1 :: taken) (hpast.place_behind hplace) (by
          cases hend : isEnd (scanToken l.file l.cursor).1 with
          | true => exact .inl rfl
          | false =>
            have := length_pos_iff.mpr (hcs hend)
            rw [hpast.length_eq] at hlen
            exact .inr (by dsimp only; omega))
      refine ⟨(scanToken l.file l.cursor).1 :: rs, ?_, .more hnext hyields⟩
      simp only [collect, hnext, hcollect]
      simp

theorem yields_lex (text : String) (file : FileId) : (new text file).Yields (lex text file) := by
  have hsteps : (new text file).cursor.rest.length < text.length + 1 := by
    rw [new, String.length_toList]
    exact Nat.lt_succ_self _
  obtain ⟨rs, hcollect, hyields⟩ := yields_collect [] (Place.past_nil {}).symm (.inr hsteps)
  obtain rfl : lex text file = rs := hcollect
  exact hyields

theorem Yields.ends {rs : List (Except LexError Token)} (h : l.Yields rs) (hdone : l.done = false) :
    ∃ body eof, rs = body ++ [.ok eof] ∧ eof.kind = .eof ∧ ∀ r ∈ body, isEnd r = false := by
  induction h with
  | done hnext =>
    rw [next?_eq hdone] at hnext
    cases (Prod.mk.inj hnext).1
  | @more l l' r rs hnext hrest ih =>
    rw [next?_eq hdone] at hnext
    obtain ⟨hr, rfl⟩ := Prod.mk.inj hnext
    cases hr
    cases hend : isEnd (scanToken l.file l.cursor).1 with
    | false =>
      obtain ⟨body, eof, rfl, heof, hbody⟩ := ih hend
      exact ⟨_ :: body, eof, rfl, heof, forall_mem_cons.mpr ⟨hend, hbody⟩⟩
    | true =>
      -- Behind the end nothing is yielded.
      obtain rfl : rs = [] := by
        cases hrest with
        | done _ => rfl
        | more hnext _ =>
          rw [next?_done hend] at hnext
          cases (Prod.mk.inj hnext).1
      cases hr : (scanToken l.file l.cursor).1 with
      | error e =>
        rw [hr] at hend
        cases hend
      | ok t =>
        rw [hr] at hend
        exact ⟨[], t, rfl, by simpa [isEnd] using hend, by simp⟩

theorem Yields.laid {rs : List (Except LexError Token)} (h : l.Yields rs)
    (hdone : l.done = true → l.cursor.rest = []) (hplace : l.cursor.place = ({} : Place).past before) :
    ∃ pieces : List Piece, pieces.flatMap Piece.chars = l.cursor.rest ∧
      pieces.filterMap Piece.result? = rs ∧ Laid l.file before pieces := by
  induction h generalizing before with
  | @done l l' hnext =>
    cases hd : l.done with
    | true => exact ⟨[], (hdone hd).symm, rfl, trivial⟩
    | false =>
      rw [next?_eq hd] at hnext
      cases (Prod.mk.inj hnext).1
  | @more l l' r rs hnext _ ih =>
    cases hd : l.done with
    | true =>
      rw [next?_done hd] at hnext
      cases (Prod.mk.inj hnext).1
    | false =>
      rw [next?_eq hd] at hnext
      obtain ⟨hr, rfl⟩ := Prod.mk.inj hnext
      cases hr
      obtain ⟨gap, start, hgap, hstart, piece, hresult, hright, hpast⟩ :=
        readsPiece_scanToken l.file hplace
      have hend : Lexer.isEnd (scanToken l.file l.cursor).1 = true →
          (scanToken l.file l.cursor).2.rest = [] := by
        intro hend
        cases ht : (scanToken l.file l.cursor).1 with
        | error e => simp [ht, isEnd] at hend
        | ok t => exact (hright.end_empty (ht ▸ hresult) (by simpa [ht, isEnd] using hend)).1
      have hplace' : (scanToken l.file l.cursor).2.place =
          ({} : Place).past (before ++ gap ++ piece.chars) := by
        rw [hpast.place, hstart.place, hplace, Place.past_append, Place.past_append]
      obtain ⟨pieces, hchars, hresults, hlaid⟩ := ih hend hplace'
      refine ⟨.gap gap :: piece :: pieces, ?_, ?_, ?_, ?_, hlaid⟩
      · rw [hstart.rest, hpast.rest, ← hchars]
        rfl
      · rw [filterMap_cons_none rfl, filterMap_cons_some hresult, hresults]
      · rw [flatMap_cons, hchars, ← hpast.rest]
        exact hgap
      · rw [hchars]
        exact hright

end Lexer

theorem lex_laid (text : String) (file : FileId) :
    ∃ pieces : List Piece, pieces.flatMap Piece.chars = text.toList ∧
      pieces.filterMap Piece.result? = lex text file ∧ Laid file [] pieces :=
  (Lexer.yields_lex text file).laid (by simp [Lexer.new]) (Place.past_nil {}).symm

theorem file_of_mem_lex {text : String} {r : Except LexError Token} (h : r ∈ lex text file) :
    (resultPos r).file = file := by
  obtain ⟨pieces, -, hresults, hlaid⟩ := lex_laid text file
  obtain ⟨p, hp, hpr⟩ := mem_filterMap.mp (hresults ▸ h)
  obtain ⟨pre, post, rfl⟩ := append_of_mem hp
  exact (hlaid.right.result hpr).1

/-- The results of a text end with the token of its end. No other one is a token of an end. -/
theorem lex_ends (text : String) (file : FileId) :
    ∃ body eof, lex text file = body ++ [.ok eof] ∧ eof.kind = .eof ∧
      ∀ r ∈ body, Lexer.isEnd r = false := (Lexer.yields_lex text file).ends rfl

end Nwscript
