import StochasticGrammar.Chart.Basic
import StochasticGrammar.Grammar.Basic

/-!
# Completion

A complete state lets the states that waited for its category at its origin move on. Forward and
inner scores are completed through the summed unit chains, so complete unit rules are not followed
again; states are taken by decreasing origin, which makes an inner score final before it is used.
Best derivations are completed one rule at a time, and a state is taken again whenever its best
derivation has improved.
-/

namespace StochasticGrammar.Parser

variable {P W : Type}

/-- The column of an earlier position. -/
def pastColumn (past : List (Column P W)) (k : Nat) : Column P W :=
  (past[k]?).getD []

/-! ## Forward and inner scores -/

/-- Whether a state at a position is to be completed: it is complete, spans something, and its rule
is not a unit rule. -/
def isPending (G : Grammar P W) (position : Nat) (s : State P W) : Bool :=
  s.isComplete && decide (s.origin < position) && !G.isUnit s.rule

/-- Puts a state behind all states of the same or a greater origin. -/
def enqueue (s : State P W) : List (State P W) → List (State P W)
  | [] => [s]
  | t :: rest => if t.origin < s.origin then s :: t :: rest else t :: enqueue s rest

/-- Queueing adds one state and loses none. -/
theorem enqueue_perm (s : State P W) (q : List (State P W)) : (enqueue s q).Perm (s :: q) := by
  induction q with
  | nil => exact .refl _
  | cons t rest ih =>
    simp only [enqueue]
    split
    · exact .refl _
    · exact (ih.cons t).trans (.swap s t rest)

/-- A queue by decreasing origin stays one. -/
theorem pairwise_enqueue (s : State P W) {q : List (State P W)}
    (h : q.Pairwise fun a b => b.origin ≤ a.origin) :
    (enqueue s q).Pairwise fun a b => b.origin ≤ a.origin := by
  induction q with
  | nil => simp [enqueue]
  | cons t rest ih =>
    obtain ⟨ht, hrest⟩ := List.pairwise_cons.mp h
    simp only [enqueue]
    split
    · rename_i hlt
      refine List.pairwise_cons.mpr ⟨fun b hb => ?_, h⟩
      rcases List.mem_cons.mp hb with rfl | hb
      · exact Nat.le_of_lt hlt
      · exact Nat.le_trans (ht b hb) (Nat.le_of_lt hlt)
    · rename_i hge
      refine List.pairwise_cons.mpr ⟨fun b hb => ?_, ih hrest⟩
      rcases List.mem_cons.mp ((enqueue_perm s rest).mem_iff.mp hb) with rfl | hb
      · exact Nat.le_of_not_lt hge
      · exact ht b hb

/-- A column under completion, with the states still to be taken, greatest origin first. -/
structure Agenda (P W : Type) where
  column : Column P W
  pending : List (State P W)

variable [DecidableEq P] [DecidableEq W]

/-- Moves a waiting cell over a completed phrase of the given score. A complete state that is new
and not of a unit rule becomes pending. -/
def moveOver (G : Grammar P W) (position : Nat) (factor : W) (agenda : Agenda P W)
    (cell : Cell P W) : Agenda P W :=
  let A := G.algebra
  let s := cell.state.advance position
  let isNew := !agenda.column.contains s
  let column := agenda.column.alter A s fun c =>
    (c.addForward A (A.mul cell.forward factor)).addInner A (A.mul cell.inner factor)
  let pending :=
    if isNew && s.isComplete && !G.isUnit s.rule then enqueue s agenda.pending
    else agenda.pending
  ⟨column, pending⟩

/-- Completes one state: for every category that unit chains lead from to the state's category, the
cells waiting for it at the state's origin move on. -/
def completeState (G : Grammar P W) (past : List (Column P W)) (position : Nat)
    (done : State P W) (agenda : Agenda P W) : Agenda P W :=
  let inner := agenda.column.inner G.algebra done
  (G.unitSources done.rule.lhs).foldl
    (fun agenda source =>
      ((pastColumn past done.origin).waiting source.1).foldl
        (moveOver G position (G.algebra.mul source.2 inner)) agenda)
    agenda

/-- Takes pending states until none is left. -/
def drain (G : Grammar P W) (past : List (Column P W)) (position : Nat) :
    Nat → Agenda P W → Column P W
  | 0, agenda => agenda.column
  | fuel + 1, agenda =>
    match agenda.pending with
    | [] => agenda.column
    | done :: rest =>
      drain G past position fuel
        (completeState G past position done { agenda with pending := rest })

/-- Completes forward and inner scores. Every state is pending at most once, and a new one comes
from a cell of an earlier column, which bounds the rounds. -/
def completeScores (G : Grammar P W) (past : List (Column P W)) (position : Nat)
    (column : Column P W) : Column P W :=
  let pending := (column.states.filter (isPending G position)).foldl (fun q s => enqueue s q) []
  drain G past position (column.length + countStates past) ⟨column, pending⟩

/-! ## Best derivations -/

/-- A column under improvement, with the complete states whose best derivation has improved. -/
structure Improvement (P W : Type) where
  column : Column P W
  improved : List (State P W)

/-- Offers a waiting cell the derivation over a completed state. -/
def offerOver (A : ScoreAlgebra P W) (position : Nat) (done : State P W)
    (score : W) (work : Improvement P W) (cell : Cell P W) : Improvement P W :=
  match cell.best with
  | none => work
  | some b =>
    let s := cell.state.advance position
    let candidate : Backpointer P W :=
      ⟨.completed, A.mul b.score score, some cell.state, some done, none⟩
    let improves := (work.column.find? s).all (Cell.isImprovedBy A candidate)
    let column := work.column.alter A s (Cell.offer A candidate)
    ⟨column, if improves && s.isComplete then work.improved ++ [s] else work.improved⟩

/-- Offers every cell that waits for a complete state the derivation over it. -/
def improveOver (A : ScoreAlgebra P W) (past : List (Column P W)) (position : Nat)
    (work : Improvement P W) (done : State P W) : Improvement P W :=
  match work.column.best? done with
  | none => work
  | some b =>
    ((pastColumn past done.origin).waiting done.rule.lhs).foldl
      (offerOver A position done b.score) work

/-- Takes states round by round: a round takes the states that the round before has improved. -/
def improve (A : ScoreAlgebra P W) (past : List (Column P W)) (position : Nat) :
    Nat → Improvement P W → Column P W
  | 0, work => work.column
  | fuel + 1, work =>
    match work.improved with
    | [] => work.column
    | queue =>
      improve A past position fuel
        (queue.foldl (improveOver A past position) ⟨work.column, []⟩)

/-- How many rounds more than there are states best derivations may take. -/
def patience : Nat := 1000000000000000000

/-- Completes best derivations. Where a part never raises a score, a best derivation takes no state
twice, and as many rounds as there are states are enough. Other scores may rise around a cycle until
they vanish or are infinite, which `patience` leaves room for. -/
def completeBest (A : ScoreAlgebra P W) (past : List (Column P W)) (position : Nat)
    (column : Column P W) : Column P W :=
  let queue := column.states.filter fun s => s.isComplete && decide (s.origin < position)
  improve A past position (column.length + countStates past + patience) ⟨column, queue⟩

/-- Completes the column at a position. -/
def complete (G : Grammar P W) (past : List (Column P W)) (position : Nat)
    (column : Column P W) : Column P W :=
  completeBest G.algebra past position (completeScores G past position column)

end StochasticGrammar.Parser
