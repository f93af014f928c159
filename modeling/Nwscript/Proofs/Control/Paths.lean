import Nwscript.Check.Stmt
import Nwscript.Proofs.Tree

/-! # Control flow

How control may run through statements when nothing is known about values: a loop condition that is a
constant other than zero holds, an omitted one too, and every other condition and the value of a
switch may go either way. The check that every path returns overlooks no way to the end of a
statement, and the statements it finds unreachable never start. -/

open List

namespace Nwscript
variable {consts consts' : NodeTable Value} {s : Stmt} {ss : List Stmt}

namespace Control

/-! ## Runs -/

inductive Exit where
  | normal | broke | continued | returned

namespace Exit

def again : Exit → Bool
  | .normal | .continued => true
  | _ => false

/-- How control leaves a loop or a switch whose body it leaves for good. -/
def caught : Exit → Exit
  | .broke => .normal
  | exit => exit

end Exit

/-- What control runs through: a statement, statements one after the other, or the statements of a
switch from one of its labels on. -/
inductive Region where
  | stmt (s : Stmt)
  | seq (ss : List Stmt)
  | labelled (ss : List Stmt)

def isPlain : Stmt → Bool
  | .var _ _ | .expr _ _ | .caseLabel _ _ | .defaultLabel _ | .empty _ => true
  | _ => false

/-- Control may run through a region and leave it in a way. -/
inductive Runs (consts : NodeTable Value) : Region → Exit → Prop
  | plain {s : Stmt} (h : isPlain s = true) : Runs consts (.stmt s) .normal
  | ret {pos : Pos} {value : Option Expr} : Runs consts (.stmt (.ret pos value)) .returned
  | breakOut {pos : Pos} : Runs consts (.stmt (.breakOut pos)) .broke
  | continueLoop {pos : Pos} : Runs consts (.stmt (.continueLoop pos)) .continued
  | block {pos : Pos} {body : List Stmt} {exit : Exit} (h : Runs consts (.seq body) exit) :
      Runs consts (.stmt (.block pos body)) exit
  | ifThen {pos : Pos} {cond : Expr} {yes : Stmt} {exit : Exit} (h : Runs consts (.stmt yes) exit) :
      Runs consts (.stmt (.ifThen pos cond yes)) exit
  | ifSkip {pos : Pos} {cond : Expr} {yes : Stmt} : Runs consts (.stmt (.ifThen pos cond yes)) .normal
  | ifElseYes {pos : Pos} {cond : Expr} {yes no : Stmt} {exit : Exit}
      (h : Runs consts (.stmt yes) exit) : Runs consts (.stmt (.ifElse pos cond yes no)) exit
  | ifElseNo {pos : Pos} {cond : Expr} {yes no : Stmt} {exit : Exit}
      (h : Runs consts (.stmt no) exit) : Runs consts (.stmt (.ifElse pos cond yes no)) exit
  | whileEnd {pos : Pos} {cond : Expr} {body : Stmt} (h : isAlwaysTrue consts cond = false) :
      Runs consts (.stmt (.whileLoop pos cond body)) .normal
  | whileLeave {pos : Pos} {cond : Expr} {body : Stmt} {exit : Exit}
      (h : Runs consts (.stmt body) exit) (hexit : exit.again = false) :
      Runs consts (.stmt (.whileLoop pos cond body)) exit.caught
  | whileAgain {pos : Pos} {cond : Expr} {body : Stmt} {exit last : Exit}
      (h : Runs consts (.stmt body) exit) (hexit : exit.again = true)
      (hlast : Runs consts (.stmt (.whileLoop pos cond body)) last) :
      Runs consts (.stmt (.whileLoop pos cond body)) last
  | doEnd {pos : Pos} {cond : Expr} {body : Stmt} {exit : Exit} (h : Runs consts (.stmt body) exit)
      (hexit : exit.again = true) (hcond : isAlwaysTrue consts cond = false) :
      Runs consts (.stmt (.doWhile pos body cond)) .normal
  | doLeave {pos : Pos} {cond : Expr} {body : Stmt} {exit : Exit} (h : Runs consts (.stmt body) exit)
      (hexit : exit.again = false) : Runs consts (.stmt (.doWhile pos body cond)) exit.caught
  | doAgain {pos : Pos} {cond : Expr} {body : Stmt} {exit last : Exit}
      (h : Runs consts (.stmt body) exit) (hexit : exit.again = true)
      (hlast : Runs consts (.stmt (.doWhile pos body cond)) last) :
      Runs consts (.stmt (.doWhile pos body cond)) last
  | forEnd {pos : Pos} {init cond next : Option Expr} {body : Stmt}
      (h : isAlwaysTrue? consts cond = false) :
      Runs consts (.stmt (.forLoop pos init cond next body)) .normal
  | forLeave {pos : Pos} {init cond next : Option Expr} {body : Stmt} {exit : Exit}
      (h : Runs consts (.stmt body) exit) (hexit : exit.again = false) :
      Runs consts (.stmt (.forLoop pos init cond next body)) exit.caught
  | forAgain {pos : Pos} {init cond next : Option Expr} {body : Stmt} {exit last : Exit}
      (h : Runs consts (.stmt body) exit) (hexit : exit.again = true)
      (hlast : Runs consts (.stmt (.forLoop pos init cond next body)) last) :
      Runs consts (.stmt (.forLoop pos init cond next body)) last
  | switchSkip {pos : Pos} {value : Expr} {body : List Stmt} (h : body.any Stmt.isDefault = false) :
      Runs consts (.stmt (.switch pos value body)) .normal
  | switch {pos : Pos} {value : Expr} {body : List Stmt} {exit : Exit}
      (h : Runs consts (.labelled body) exit) :
      Runs consts (.stmt (.switch pos value body)) exit.caught
  | nil : Runs consts (.seq []) .normal
  | stop {s : Stmt} {ss : List Stmt} {exit : Exit} (h : Runs consts (.stmt s) exit)
      (hexit : exit ≠ .normal) : Runs consts (.seq (s :: ss)) exit
  | next {s : Stmt} {ss : List Stmt} {exit : Exit} (h : Runs consts (.stmt s) .normal)
      (hss : Runs consts (.seq ss) exit) : Runs consts (.seq (s :: ss)) exit
  | label {s : Stmt} {ss : List Stmt} {exit : Exit} (h : s.isLabel = true)
      (hss : Runs consts (.seq (s :: ss)) exit) : Runs consts (.labelled (s :: ss)) exit
  | later {s : Stmt} {ss : List Stmt} {exit : Exit} (h : Runs consts (.labelled ss) exit) :
      Runs consts (.labelled (s :: ss)) exit

/-! ## Ends that are reached -/

/-- What the check finds out about a region allows for a way to leave it. -/
def Allows (consts : NodeTable Value) : Region → Exit → Prop
  | .stmt s, .normal => fallsThrough consts s = true
  | .stmt s, .broke => s.breaks = true
  | .stmt s, .continued => s.continues = true
  | .seq ss, .normal => blockFallsThrough consts true ss = true
  | .labelled ss, .normal => ∀ reachable, blockFallsThrough consts reachable ss = true
  | .seq ss, .broke | .labelled ss, .broke => anyBreaks ss = true
  | .seq ss, .continued | .labelled ss, .continued => anyContinues ss = true
  | _, .returned => True

/-- **The check allows for every way in which control may leave statements.** -/
theorem Runs.allowed {region : Region} {exit : Exit} (h : Runs consts region exit) :
    Allows consts region exit := by
  induction h with
  | @plain s h => cases s <;> first | rfl | cases h
  | ret => trivial
  | breakOut => rfl
  | continueLoop => rfl
  | @block _ _ exit _ ih => cases exit <;> exact ih
  | @ifThen _ _ _ exit _ ih =>
    cases exit with
    | normal => rfl
    | _ => exact ih
  | ifSkip => rfl
  | @ifElseYes _ _ _ _ exit _ ih => cases exit <;> simp_all [Allows, fallsThrough, Stmt.breaks, Stmt.continues]
  | @ifElseNo _ _ _ _ exit _ ih => cases exit <;> simp_all [Allows, fallsThrough, Stmt.breaks, Stmt.continues]
  | whileEnd h => simp [Allows, fallsThrough, h]
  | forEnd h => simp [Allows, fallsThrough, h]
  | @whileLeave _ _ _ exit _ hexit ih | @forLeave _ _ _ _ _ exit _ hexit ih =>
    cases exit with
    | broke => simp_all [Allows, Exit.caught, fallsThrough]
    | returned => trivial
    | _ => cases hexit
  | whileAgain _ _ _ _ ih | doAgain _ _ _ _ ih | forAgain _ _ _ _ ih => exact ih
  | @doEnd _ _ _ exit _ hexit hcond ih =>
    -- control comes to the condition behind the body or by a continue
    cases exit with
    | normal | continued => simp_all [Allows, fallsThrough]
    | _ => cases hexit
  | @doLeave _ _ _ exit _ hexit ih =>
    cases exit with
    | broke => simp_all [Allows, Exit.caught, fallsThrough]
    | returned => trivial
    | _ => cases hexit
  | switchSkip h => simp [Allows, fallsThrough, h]
  | @switch _ _ _ exit _ ih => cases exit <;> simp_all [Allows, Exit.caught, fallsThrough, Stmt.continues]
  | nil => rfl
  | @stop _ _ exit _ hexit ih => cases exit <;> simp_all [Allows, anyBreaks, anyContinues]
  | @next _ _ exit _ _ ih ihss =>
    cases exit <;> simp_all [Allows, blockFallsThrough, anyBreaks, anyContinues]
  | @label _ _ exit h _ ih =>
    cases exit with
    | normal =>
      intro reachable
      simpa [Allows, blockFallsThrough, h] using ih
    | _ => exact ih
  | @later _ _ exit _ ih =>
    cases exit with
    | normal => exact fun reachable => ih _
    | broke | continued => simp_all [Allows, anyBreaks, anyContinues]
    | returned => trivial

theorem Runs.goesOn (h : Runs consts (.stmt s) .normal) : s.goesOn consts = true := by
  cases s with
  | breakOut pos => cases h; contradiction
  | continueLoop pos => cases h; contradiction
  | _ => exact h.allowed

/-! ## Statements that start -/

/-- The way to a statement inside others: the place to enter, again and again. -/
abbrev Path := List Nat

mutual

def stmtAt? : Stmt → Path → Option Stmt
  | s, [] => some s
  | .block _ body, path | .switch _ _ body, path => seqAt? body path
  | .ifThen _ _ yes, 0 :: path | .ifElse _ _ yes _, 0 :: path => stmtAt? yes path
  | .ifElse _ _ _ no, 1 :: path => stmtAt? no path
  | .whileLoop _ _ body, 0 :: path | .doWhile _ body _, 0 :: path | .forLoop _ _ _ _ body, 0 :: path =>
    stmtAt? body path
  | _, _ => none

def seqAt? : List Stmt → Path → Option Stmt
  | s :: _, 0 :: path => stmtAt? s path
  | _ :: ss, (i + 1) :: path => seqAt? ss (i :: path)
  | _, _ => none

end

/-- When a region starts, the statement at the end of a path in it may start. A loop starts its body
in every round as in the first. -/
inductive Starts (consts : NodeTable Value) : Region → Path → Prop
  | here {s : Stmt} : Starts consts (.stmt s) []
  | block {pos : Pos} {body : List Stmt} {path : Path} (h : Starts consts (.seq body) path) :
      Starts consts (.stmt (.block pos body)) path
  | ifThen {pos : Pos} {cond : Expr} {yes : Stmt} {path : Path} (h : Starts consts (.stmt yes) path) :
      Starts consts (.stmt (.ifThen pos cond yes)) (0 :: path)
  | ifElseYes {pos : Pos} {cond : Expr} {yes no : Stmt} {path : Path}
      (h : Starts consts (.stmt yes) path) :
      Starts consts (.stmt (.ifElse pos cond yes no)) (0 :: path)
  | ifElseNo {pos : Pos} {cond : Expr} {yes no : Stmt} {path : Path}
      (h : Starts consts (.stmt no) path) :
      Starts consts (.stmt (.ifElse pos cond yes no)) (1 :: path)
  | whileLoop {pos : Pos} {cond : Expr} {body : Stmt} {path : Path}
      (h : Starts consts (.stmt body) path) :
      Starts consts (.stmt (.whileLoop pos cond body)) (0 :: path)
  | doWhile {pos : Pos} {cond : Expr} {body : Stmt} {path : Path}
      (h : Starts consts (.stmt body) path) :
      Starts consts (.stmt (.doWhile pos body cond)) (0 :: path)
  | forLoop {pos : Pos} {init cond next : Option Expr} {body : Stmt} {path : Path}
      (h : Starts consts (.stmt body) path) :
      Starts consts (.stmt (.forLoop pos init cond next body)) (0 :: path)
  | switch {pos : Pos} {value : Expr} {body : List Stmt} {path : Path}
      (h : Starts consts (.labelled body) path) :
      Starts consts (.stmt (.switch pos value body)) path
  | head {s : Stmt} {ss : List Stmt} {path : Path} (h : Starts consts (.stmt s) path) :
      Starts consts (.seq (s :: ss)) (0 :: path)
  | next {s : Stmt} {ss : List Stmt} {i : Nat} {path : Path} (hs : Runs consts (.stmt s) .normal)
      (h : Starts consts (.seq ss) (i :: path)) : Starts consts (.seq (s :: ss)) ((i + 1) :: path)
  | label {s : Stmt} {ss : List Stmt} {path : Path} (hs : s.isLabel = true)
      (h : Starts consts (.seq (s :: ss)) path) : Starts consts (.labelled (s :: ss)) path
  | later {s : Stmt} {ss : List Stmt} {i : Nat} {path : Path}
      (h : Starts consts (.labelled ss) (i :: path)) :
      Starts consts (.labelled (s :: ss)) ((i + 1) :: path)

/-! ## Statements that are reported -/

abbrev StmtSites := List (Path × Stmt)

variable {path : Path} {inSwitch reachable reported : Bool} {t : Stmt}

namespace StmtSites

def positions (sites : StmtSites) : List Pos := sites.map fun site => site.2.pos

def below (i : Nat) (sites : StmtSites) : StmtSites := sites.map (Prod.map (i :: ·) id)

def behind (sites : StmtSites) : StmtSites := sites.map (Prod.map (List.modifyHead (· + 1)) id)

@[simp] theorem positions_below (i : Nat) (sites : StmtSites) :
    (sites.below i).positions = sites.positions := by
  simp [below, positions]

@[simp] theorem positions_behind (sites : StmtSites) : sites.behind.positions = sites.positions := by
  simp [behind, positions]

@[simp] theorem positions_append (sites others : StmtSites) :
    positions (sites ++ others) = sites.positions ++ others.positions := map_append

theorem mem_below {i : Nat} {sites : StmtSites} :
    (path, s) ∈ sites.below i ↔ ∃ rest, path = i :: rest ∧ (rest, s) ∈ sites := by
  simp only [below, mem_map, Prod.exists, Prod.map_apply, id_eq, Prod.mk.injEq]
  constructor
  · rintro ⟨rest, _, hmem, rfl, rfl⟩
    exact ⟨rest, rfl, hmem⟩
  · rintro ⟨rest, rfl, hmem⟩
    exact ⟨rest, s, hmem, rfl, rfl⟩

theorem mem_behind {sites : StmtSites} :
    (path, s) ∈ sites.behind ↔ ∃ rest, path = rest.modifyHead (· + 1) ∧ (rest, s) ∈ sites := by
  simp only [behind, mem_map, Prod.exists, Prod.map_apply, id_eq, Prod.mk.injEq]
  constructor
  · rintro ⟨rest, _, hmem, rfl, rfl⟩
    exact ⟨rest, rfl, hmem⟩
  · rintro ⟨rest, rfl, hmem⟩
    exact ⟨rest, s, hmem, rfl, rfl⟩

end StmtSites

/-- Whether a statement of a sequence is reported: the first one that control cannot reach. -/
def reports (reachable reported : Bool) (s : Stmt) : Bool :=
  !reachable && !reported && !(match s with
    | .empty _ => true
    | _ => false)

mutual

def dead (consts : NodeTable Value) : Stmt → StmtSites
  | .block _ body => deadIn consts false true false body
  | .switch _ _ body => deadIn consts true true false body
  | .ifThen _ _ yes => (dead consts yes).below 0
  | .ifElse _ _ yes no => (dead consts yes).below 0 ++ (dead consts no).below 1
  | .whileLoop _ _ body | .doWhile _ body _ | .forLoop _ _ _ _ body => (dead consts body).below 0
  | _ => []

/-- The statements in a sequence that are reported. What follows a label of a switch is reachable. -/
def deadIn (consts : NodeTable Value) (inSwitch reachable reported : Bool) : List Stmt → StmtSites
  | [] => []
  | s :: ss =>
    if inSwitch && s.isLabel then (deadIn consts inSwitch true false ss).behind
    else
      (if reports reachable reported s then [([0], s)] else []) ++ ((dead consts s).below 0 ++
        (deadIn consts inSwitch (reachable && s.goesOn consts)
          (reports reachable reported s || reported) ss).behind)

end

theorem positions_deadIn_label (h : s.isLabel = true) (reachable reported : Bool) (ss : List Stmt) :
    (deadIn consts true reachable reported (s :: ss)).positions =
      (deadIn consts true true false ss).positions := by
  simp [deadIn, h]

theorem positions_deadIn_cons (h : inSwitch = false ∨ s.isLabel = false) (reachable reported : Bool)
    (ss : List Stmt) : (deadIn consts inSwitch reachable reported (s :: ss)).positions =
      ((if reports reachable reported s then [s.pos] else []) ++ (dead consts s).positions) ++
        (deadIn consts inSwitch (reachable && s.goesOn consts)
          (reports reachable reported s || reported) ss).positions := by
  have hplain : (inSwitch && s.isLabel) = false := by rcases h with h | h <;> simp [h]
  rw [deadIn, hplain, append_assoc]
  simp only [Bool.false_eq_true, if_false, StmtSites.positions_append, StmtSites.positions_below,
    StmtSites.positions_behind]
  split <;> rfl

theorem mem_deadIn (h : (path, t) ∈ deadIn consts inSwitch reachable reported (s :: ss)) :
    (inSwitch = true ∧ s.isLabel = true ∧ ∃ rest, path = rest.modifyHead (· + 1) ∧
      (rest, t) ∈ deadIn consts inSwitch true false ss) ∨
    ((inSwitch = true → s.isLabel = false) ∧ ((reachable = false ∧ path = [0] ∧ t = s) ∨
      (∃ rest, path = 0 :: rest ∧ (rest, t) ∈ dead consts s) ∨
      ∃ rest reported', path = rest.modifyHead (· + 1) ∧
        (rest, t) ∈ deadIn consts inSwitch (reachable && s.goesOn consts) reported' ss)) := by
  rw [deadIn] at h
  split at h
  · next hlabel =>
    rw [Bool.and_eq_true] at hlabel
    exact .inl ⟨hlabel.1, hlabel.2, StmtSites.mem_behind.mp h⟩
  · next hlabel =>
    refine .inr ⟨by simpa using hlabel, ?_⟩
    rcases mem_append.mp h with h | h
    · split at h
      · next hreports =>
        obtain ⟨rfl, rfl⟩ := Prod.mk.inj (mem_singleton.mp h)
        exact .inl ⟨by simp_all [reports], rfl, rfl⟩
      · cases h
    · rcases mem_append.mp h with h | h
      · exact .inr (.inl (StmtSites.mem_below.mp h))
      · obtain ⟨rest, hrest⟩ := StmtSites.mem_behind.mp h
        exact .inr (.inr ⟨rest, _, hrest⟩)

section Dead

variable {consts : NodeTable Value} {ss : List Stmt}

theorem seqAt?_nil (ss : List Stmt) : seqAt? ss [] = none := by cases ss <;> rfl

theorem seqAt?_behind {rest : Path} (h : seqAt? ss rest = some t) :
    seqAt? (s :: ss) (rest.modifyHead (· + 1)) = some t := by
  cases rest with
  | nil => simp [seqAt?_nil] at h
  | cons i rest => exact h

theorem seqAt?_of_mem (ih : ∀ s ∈ ss, ∀ path t, (path, t) ∈ dead consts s → stmtAt? s path = some t)
    (h : (path, t) ∈ deadIn consts inSwitch reachable reported ss) : seqAt? ss path = some t := by
  induction ss generalizing reachable reported path with
  | nil => cases h
  | cons s ss ihss =>
    have ihss {reachable reported path} (h : (path, t) ∈ deadIn consts inSwitch reachable reported ss) :=
      ihss (fun s hs => ih s (.tail _ hs)) h
    rcases mem_deadIn h with ⟨-, -, rest, rfl, hmem⟩ | ⟨-, ⟨-, rfl, rfl⟩ | ⟨rest, rfl, hmem⟩ |
      ⟨rest, _, rfl, hmem⟩⟩
    · exact seqAt?_behind (ihss hmem)
    · cases t <;> rfl
    · exact ih s (.head _) rest t hmem
    · exact seqAt?_behind (ihss hmem)

theorem stmtAt?_of_mem_dead (h : (path, t) ∈ dead consts s) : stmtAt? s path = some t := by
  induction s using Stmt.inductionOn generalizing path t with
  | block pos body ih | switch pos value body ih =>
    rw [dead] at h
    have hat := seqAt?_of_mem (fun s hs path t => ih s hs) h
    cases path with
    | nil => simp [seqAt?_nil] at hat
    | cons i path => exact hat
  | ifThen pos cond yes ih =>
    obtain ⟨rest, rfl, hmem⟩ := StmtSites.mem_below.mp h
    exact ih hmem
  | ifElse pos cond yes no ihy ihn =>
    rcases mem_append.mp h with h | h
    · obtain ⟨rest, rfl, hmem⟩ := StmtSites.mem_below.mp h
      exact ihy hmem
    · obtain ⟨rest, rfl, hmem⟩ := StmtSites.mem_below.mp h
      exact ihn hmem
  | whileLoop pos cond body ih | doWhile pos body cond ih | forLoop pos init cond next body ih =>
    obtain ⟨rest, rfl, hmem⟩ := StmtSites.mem_below.mp h
    exact ih hmem
  | _ => cases h

theorem seqAt?_of_mem_deadIn (h : (path, t) ∈ deadIn consts inSwitch reachable reported ss) :
    seqAt? ss path = some t :=
  seqAt?_of_mem (fun _ _ _ _ h => stmtAt?_of_mem_dead h) h

theorem Starts.behind {rest : Path} (h : Starts consts (.seq (s :: ss)) (rest.modifyHead (· + 1))) :
    Runs consts (.stmt s) .normal ∧ Starts consts (.seq ss) rest := by
  cases rest with
  | nil => cases h
  | cons i rest =>
    cases h with
    | next hs h => exact ⟨hs, h⟩

/-- Reported statements of a sequence do not start: not from its beginning if control comes there,
and in a switch not from a label either. -/
theorem not_starts_of_mem_deadIn
    (ih : ∀ s ∈ ss, ∀ path t, (path, t) ∈ dead consts s → ¬ Starts consts (.stmt s) path)
    (h : (path, t) ∈ deadIn consts inSwitch reachable reported ss) :
    (reachable = true → ¬ Starts consts (.seq ss) path) ∧
      (inSwitch = true → ¬ Starts consts (.labelled ss) path) := by
  induction ss generalizing reachable reported path with
  | nil => cases h
  | cons s ss ihss =>
    have ihss {reachable reported path} (h : (path, t) ∈ deadIn consts inSwitch reachable reported ss) :=
      ihss (fun s hs => ih s (.tail _ hs)) h
    -- from a later label on, the first statement is not run at all
    have hlater {rest : Path} (hss : inSwitch = true → ¬ Starts consts (.labelled ss) rest)
        (hhere : inSwitch = true → s.isLabel = true →
          ¬ Starts consts (.seq (s :: ss)) (rest.modifyHead (· + 1))) :
        inSwitch = true → ¬ Starts consts (.labelled (s :: ss)) (rest.modifyHead (· + 1)) := by
      intro hswitch hstarts
      cases rest with
      | nil =>
        cases hstarts with
        | label hs h => exact hhere hswitch hs h
      | cons i rest =>
        cases hstarts with
        | label hs h => exact hhere hswitch hs h
        | later h => exact hss hswitch h
    have hfirst {rest : Path} (hlabel : inSwitch = true → s.isLabel = false) :
        inSwitch = true → ¬ Starts consts (.labelled (s :: ss)) (0 :: rest) := by
      intro hswitch hstarts
      cases hstarts with
      | label hs h => simp [hlabel hswitch] at hs
    rcases mem_deadIn h with ⟨-, -, rest, rfl, hmem⟩ | ⟨hlabel, ⟨hreach, rfl, rfl⟩ | ⟨rest, rfl, hmem⟩ |
      ⟨rest, _, rfl, hmem⟩⟩
    · have hseq : ¬ Starts consts (.seq (s :: ss)) (rest.modifyHead (· + 1)) :=
        fun hstarts => (ihss hmem).1 rfl hstarts.behind.2
      exact ⟨fun _ => hseq, hlater (ihss hmem).2 fun _ _ => hseq⟩
    · exact ⟨fun h => by simp [hreach] at h, hfirst hlabel⟩
    · refine ⟨fun _ hstarts => ?_, hfirst hlabel⟩
      cases hstarts with
      | head h => exact ih s (.head _) rest t hmem h
    · refine ⟨fun hreach hstarts => ?_, hlater (ihss hmem).2 fun hswitch hs => ?_⟩
      · obtain ⟨hs, hrest⟩ := hstarts.behind
        exact (ihss hmem).1 (by rw [hreach, hs.goesOn]; rfl) hrest
      · simp [hlabel hswitch] at hs

/-- **A reported statement never starts.** -/
theorem not_starts_of_mem_dead (h : (path, t) ∈ dead consts s) : ¬ Starts consts (.stmt s) path := by
  induction s using Stmt.inductionOn generalizing path t with
  | block pos body ih =>
    have hat : seqAt? body path = some t := seqAt?_of_mem_deadIn h
    intro hstarts
    cases hstarts with
    | here => simp [seqAt?_nil] at hat
    | block hstarts => exact (not_starts_of_mem_deadIn (fun s hs path t => ih s hs) h).1 rfl hstarts
  | switch pos value body ih =>
    have hat : seqAt? body path = some t := seqAt?_of_mem_deadIn h
    intro hstarts
    cases hstarts with
    | here => simp [seqAt?_nil] at hat
    | switch hstarts => exact (not_starts_of_mem_deadIn (fun s hs path t => ih s hs) h).2 rfl hstarts
  | ifThen pos cond yes ih =>
    obtain ⟨rest, rfl, hmem⟩ := StmtSites.mem_below.mp h
    rintro (_ | _)
    exact ih hmem ‹_›
  | ifElse pos cond yes no ihy ihn =>
    rcases mem_append.mp h with h | h
    · obtain ⟨rest, rfl, hmem⟩ := StmtSites.mem_below.mp h
      rintro (_ | _)
      exact ihy hmem ‹_›
    · obtain ⟨rest, rfl, hmem⟩ := StmtSites.mem_below.mp h
      rintro (_ | _)
      exact ihn hmem ‹_›
  | whileLoop pos cond body ih | doWhile pos body cond ih | forLoop pos init cond next body ih =>
    obtain ⟨rest, rfl, hmem⟩ := StmtSites.mem_below.mp h
    rintro (_ | _)
    exact ih hmem ‹_›
  | _ => cases h

end Dead

end Control

/-! ## Values that matter -/

def SameValues (consts consts' : NodeTable Value) (ids : List NodeId) : Prop :=
  ∀ id ∈ ids, consts.get? id = consts'.get? id

theorem SameValues.subset {ids ids' : List NodeId} (h : SameValues consts consts' ids)
    (hs : ids' ⊆ ids) : SameValues consts consts' ids' :=
  fun id hid => h id (hs hid)

theorem isAlwaysTrue_congr {cond : Expr} (h : SameValues consts consts' cond.ids) :
    isAlwaysTrue consts cond = isAlwaysTrue consts' cond := by
  rw [isAlwaysTrue, isAlwaysTrue, h cond.id cond.id_mem_ids]

theorem isAlwaysTrue?_congr {cond : Option Expr}
    (h : SameValues consts consts' (cond.toList.flatMap Expr.ids)) :
    isAlwaysTrue? consts cond = isAlwaysTrue? consts' cond := by
  cases cond with
  | none => rfl
  | some cond => exact isAlwaysTrue_congr (h.subset (by simp))

theorem blockFallsThrough_congr_of_forall (ih : ∀ s ∈ ss, SameValues consts consts' s.ids →
      fallsThrough consts s = fallsThrough consts' s)
    (h : SameValues consts consts' (Stmt.idsOf ss)) (reachable : Bool) :
    blockFallsThrough consts reachable ss = blockFallsThrough consts' reachable ss := by
  induction ss generalizing reachable with
  | nil => rfl
  | cons s ss ihss =>
    rw [Stmt.idsOf] at h
    rw [blockFallsThrough, blockFallsThrough, ih s (.head _) (h.subset (subset_append_left _ _))]
    exact ihss (fun x hx => ih x (.tail _ hx)) (h.subset (subset_append_right _ _)) _

/-- Whether control reaches the end of a statement depends on the values of its own nodes only. -/
theorem fallsThrough_congr (h : SameValues consts consts' s.ids) :
    fallsThrough consts s = fallsThrough consts' s := by
  induction s using Stmt.inductionOn with
  | block pos body ih =>
    rw [fallsThrough, fallsThrough]
    exact blockFallsThrough_congr_of_forall ih h true
  | ifElse pos cond yes no ihy ihn =>
    rw [Stmt.ids] at h
    rw [fallsThrough, fallsThrough, ihy (h.subset (by simp)), ihn (h.subset (by simp))]
  | whileLoop pos cond body ih =>
    rw [Stmt.ids] at h
    rw [fallsThrough, fallsThrough, isAlwaysTrue_congr (h.subset (by simp))]
  | doWhile pos body cond ih =>
    rw [Stmt.ids] at h
    rw [fallsThrough, fallsThrough, isAlwaysTrue_congr (h.subset (by simp)), ih (h.subset (by simp))]
  | forLoop pos init cond next body ih =>
    rw [Stmt.ids] at h
    rw [fallsThrough, fallsThrough, isAlwaysTrue?_congr (h.subset ?_)]
    intro id hid
    exact mem_append_right _ (mem_append_left _ hid)
  | switch pos value body ih =>
    rw [Stmt.ids] at h
    rw [fallsThrough, fallsThrough, blockFallsThrough_congr_of_forall ih (h.subset (by simp)) true]
  | _ => rfl

theorem goesOn_congr (h : SameValues consts consts' s.ids) : s.goesOn consts = s.goesOn consts' := by
  cases s with
  | breakOut pos => rfl
  | continueLoop pos => rfl
  | _ => exact fallsThrough_congr h

theorem blockFallsThrough_congr (h : SameValues consts consts' (Stmt.idsOf ss)) (reachable : Bool) :
    blockFallsThrough consts reachable ss = blockFallsThrough consts' reachable ss :=
  blockFallsThrough_congr_of_forall (fun _ _ hs => fallsThrough_congr hs) h reachable

end Nwscript
