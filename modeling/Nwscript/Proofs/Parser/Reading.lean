import Mathlib
import Nwscript.Syntax.ItemParser

/-! # What reading keeps

A parser numbers its nodes upwards and never forgets an error. Rules for parsers one step after the
other. -/

namespace Nwscript

/-- Numbers are not used again, and errors are not forgotten. -/
structure ParserState.Grows (s s' : ParserState) : Prop where
  nextId : s.nextId ≤ s'.nextId
  errors : s.errors <:+ s'.errors

namespace ParserState.Grows

theorem refl (s : ParserState) : Grows s s := ⟨Nat.le_refl _, List.suffix_refl _⟩

theorem trans {s s' s'' : ParserState} (h : Grows s s') (h' : Grows s' s'') : Grows s s'' :=
  ⟨Nat.le_trans h.nextId h'.nextId, h.errors.trans h'.errors⟩

theorem no_errors {s s' : ParserState} (h : Grows s s') (h' : s'.errors = []) : s.errors = [] :=
  List.suffix_nil.mp (h' ▸ h.errors)

end ParserState.Grows

namespace Parser

open ParserState (Grows)

def Reads {α : Type} (p : Parser α) (s : ParserState) (Q : α → ParserState → Prop) : Prop :=
  match p s with
  | .ok a s' => Grows s s' ∧ Q a s'
  | .error _ s' => Grows s s'

section Rules

variable {α β : Type} {p : Parser α} {k : α → Parser β} {s : ParserState}

theorem Reads.bind {Q : α → ParserState → Prop} {R : β → ParserState → Prop} (hp : p.Reads s Q)
    (hk : ∀ a s', Grows s s' → Q a s' → (k a).Reads s' R) : (p >>= k).Reads s R := by
  simp only [Reads] at hp ⊢
  show match EStateM.bind p k s with
    | .ok b s' => Grows s s' ∧ R b s'
    | .error _ s' => Grows s s'
  unfold EStateM.bind
  cases h : p s with
  | error e s' =>
    rw [h] at hp
    exact hp
  | ok a s' =>
    rw [h] at hp
    have hka := hk a s' hp.1 hp.2
    unfold Reads at hka
    dsimp only
    cases h' : k a s' with
    | error e s'' =>
      rw [h'] at hka
      exact hp.1.trans hka
    | ok b s'' =>
      rw [h'] at hka
      exact ⟨hp.1.trans hka.1, hka.2⟩

theorem Reads.weaken {Q R : α → ParserState → Prop} (hp : p.Reads s Q)
    (h : ∀ a s', Grows s s' → Q a s' → R a s') : p.Reads s R := by
  unfold Reads at hp ⊢
  cases hps : p s with
  | error e s' =>
    rw [hps] at hp
    exact hp
  | ok a s' =>
    rw [hps] at hp
    exact ⟨hp.1, h a s' hp.1 hp.2⟩

theorem Reads.pure {a : α} {Q : α → ParserState → Prop} (h : Q a s) :
    (Pure.pure a : Parser α).Reads s Q := ⟨Grows.refl s, h⟩

theorem reads_modify {a : ParserState → ParserState} (h : Grows s (a s)) :
    (modify a : Parser Unit).Reads s fun _ _ => True := ⟨h, trivial⟩

end Rules

end Parser
end Nwscript
