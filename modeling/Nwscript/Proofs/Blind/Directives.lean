import Nwscript.Proofs.Blind.Code

/-! # Directives do not matter

The items that record include and define lines are not looked at. Without them a program has the same
tables, the same findings and the same code; only the functions are defined by items with smaller
numbers. So programs that differ in such items and in the places of the others have the same object. -/

namespace Nwscript

def Item.isDirective : Item → Bool
  | .includeLine _ _ | .defineLine _ _ _ => true
  | _ => false

theorem Item.isInert_of_isDirective {item : Item} (h : item.isDirective = true) : item.IsInert := by
  cases item with
  | includeLine pos name => exact .includeLine
  | defineLine pos name value => exact .defineLine
  | _ => cases h

namespace Program

def stripped (program : Program) : Program := program.filter fun item => !item.isDirective

variable {item : Item} {items : Program}

theorem stripped_directive (h : item.isDirective = true) : stripped (item :: items) = stripped items :=
  List.filter_cons_of_neg (by simp [h])

theorem stripped_item (h : item.isDirective = false) :
    stripped (item :: items) = item :: stripped items :=
  List.filter_cons_of_pos (by simp [h])

def number : Program → Nat → Nat
  | [], k => k
  | item :: items, 0 => if item.isDirective then number items 0 + 1 else 0
  | item :: items, k + 1 => number items (if item.isDirective then k + 1 else k) + 1

theorem number_directive (h : item.isDirective = true) (k : Nat) :
    number (item :: items) k = number items k + 1 := by
  cases k <;> simp [number, h]

theorem number_item (h : item.isDirective = false) (k : Nat) :
    number (item :: items) (k + 1) = number items k + 1 := by
  simp [number, h]

theorem number_strictMono (program : Program) : StrictMono program.number := by
  refine strictMono_nat_of_lt_succ fun k => ?_
  induction program generalizing k with
  | nil => exact Nat.lt_succ_self k
  | cons item items ih =>
    cases h : item.isDirective with
    | true =>
      rw [number_directive h, number_directive h]
      exact Nat.succ_lt_succ (ih k)
    | false =>
      rw [number_item h]
      cases k with
      | zero => simp [number, h]
      | succ k =>
        rw [number_item h]
        exact Nat.succ_lt_succ (ih k)

theorem getElem?_number (program : Program) (k : Nat) :
    program[program.number k]? = program.stripped[k]? := by
  induction program generalizing k with
  | nil => rfl
  | cons item items ih =>
    cases h : item.isDirective with
    | true => rw [number_directive h, stripped_directive h, List.getElem?_cons_succ, ih]
    | false =>
      rw [stripped_item h]
      cases k with
      | zero => simp [number, h]
      | succ k => rw [number_item h, List.getElem?_cons_succ, List.getElem?_cons_succ, ih]

theorem relaid_stripped (program : Program) {ι : Nat → Nat} {m n : Nat}
    (h : ∀ k, ι (m + k) = n + program.number k) :
    Relaid (fun p => p) ι m program.stripped n program := by
  induction program generalizing m n with
  | nil => exact .nil
  | cons item items ih =>
    cases hitem : item.isDirective with
    | true =>
      rw [stripped_directive hitem]
      refine .inert (Item.isInert_of_isDirective hitem) (ih fun k => ?_)
      rw [h k, number_directive hitem]
      omega
    | false =>
      have hfirst : ι m = n := by
        have hm := h 0
        simpa [number, hitem] using hm
      have hrest : Relaid (fun p => p) ι (m + 1) (stripped items) (n + 1) items := by
        refine ih fun k => ?_
        rw [Nat.add_assoc, Nat.add_comm 1 k, h, number_item hitem]
        omega
      have hall := Relaid.item item (fun _ _ _ => hfirst) hrest
      rwa [Item.moved_same, ← stripped_item hitem] at hall

end Program

theorem check_stripped (engine : EngineTable) (program : Program) :
    check engine program =
      { check engine program.stripped with
        analysis.definitions :=
          (check engine program.stripped).analysis.definitions.map (Prod.map id program.number) } := by
  have hrelaid := program.relaid_stripped fun k => by rw [Nat.zero_add, Nat.zero_add]
  rw [← Checked.moved_same]
  exact check_relaid engine program.number_strictMono.injective hrelaid

theorem generate_stripped (engine : EngineTable) (program : Program) :
    generate engine program (check engine program).analysis =
      generate engine program.stripped (check engine program.stripped).analysis := by
  have hrelaid := program.relaid_stripped fun k => by rw [Nat.zero_add, Nat.zero_add]
  rw [check_relaid engine program.number_strictMono.injective hrelaid]
  exact generate_relaid engine program.number_strictMono hrelaid
    (check_definesFunctions engine program.stripped)

/-- **Include and define items are inert.** Without them the findings, the code and the tables are the
same, but for the numbers of the items that define functions. So another such item, like that of a file
that is included again, changes no byte of the object, wherever the items behind it are moved. -/
theorem directives_inert (engine : EngineTable) (program : Program) :
    check engine program =
        { check engine program.stripped with
          analysis.definitions :=
            (check engine program.stripped).analysis.definitions.map (Prod.map id program.number) } ∧
      (∀ k, program[program.number k]? = program.stripped[k]?) ∧
      generate engine program (check engine program).analysis =
        generate engine program.stripped (check engine program.stripped).analysis ∧
      ∀ other : Program, other.stripped.bare = program.stripped.bare →
        (generate engine other (check engine other).analysis).map link =
          (generate engine program (check engine program).analysis).map link := by
  refine ⟨check_stripped engine program, program.getElem?_number, generate_stripped engine program,
    fun other hother => ?_⟩
  rw [generate_stripped engine other, generate_of_bare_eq engine hother, ← generate_stripped]

/-- A script that includes a file so many times, on lines of their own. -/
def Sample.including (times : Nat) : Program :=
  (List.range times).map (fun line => .includeLine ⟨0, line + 1, 1⟩ "a") ++
    [.function ⟨⟨0, times + 1, 1⟩, .void, "main", []⟩ [.empty ⟨0, times + 1, 15⟩]]

theorem directives_inert_again :
    let engine : EngineTable := { version := "1", checksum := 0 }
    let once := Sample.including 1
    let again := Sample.including 2
    once.bare ≠ again.bare ∧
      (generate engine again (check engine again).analysis).map link =
        (generate engine once (check engine once).analysis).map link := by
  intro engine once again
  refine ⟨fun h => ?_, (directives_inert engine once).2.2.2 again rfl⟩
  exact absurd (congrArg List.length h) (by decide)

end Nwscript
