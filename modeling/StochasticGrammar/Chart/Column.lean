import StochasticGrammar.Chart.State

/-!
# Columns of a chart

A column holds the states that end at one position, in the order in which they came, each once. A
state comes with its forward score, its inner score and the best derivation found for it so far.
-/

namespace StochasticGrammar

/-- How a state was reached. -/
inductive StepKind where
  | seed
  | predicted
  | scanned
  | completed
  | other (name : String)
  deriving DecidableEq, Repr

/-- The name of a step. -/
def StepKind.display : StepKind → String
  | seed => "INIT"
  | predicted => "PRED"
  | scanned => "SCAN"
  | completed => "COMP"
  | other name => name

/-- The step of that name. -/
def StepKind.ofName (name : String) : StepKind :=
  ([seed, predicted, scanned, completed].find? fun k => k.display == name).getD (other name)

/-- The best derivation of a state: its score and its last step, which advanced a previous state
over a token or over a complete state. -/
structure Backpointer (P W : Type) where
  kind : StepKind
  score : W
  previous : Option (State P W)
  completed : Option (State P W)
  token : Option Payload

/-- A state with its scores. -/
structure Cell (P W : Type) where
  state : State P W
  /-- Summed score of all derivations of the input up to and including the state. -/
  forward : W
  /-- Summed score of all derivations of the state's own span. -/
  inner : W
  /-- Best derivation of the state's own span. -/
  best : Option (Backpointer P W)

namespace Cell

variable {P W : Type} (A : ScoreAlgebra P W)

/-- A state that no derivation has reached yet. -/
def fresh (s : State P W) : Cell P W :=
  ⟨s, A.zero, A.zero, none⟩

/-- Adds to the forward score. -/
def addForward (w : W) (c : Cell P W) : Cell P W :=
  { c with forward := A.add c.forward w }

/-- Adds to the inner score. -/
def addInner (w : W) (c : Cell P W) : Cell P W :=
  { c with inner := A.add c.inner w }

/-- Whether a derivation is the first one or strictly better than the best one. -/
def isImprovedBy (b : Backpointer P W) (c : Cell P W) : Bool :=
  c.best.all fun old => A.isBetter b.score old.score

/-- Keeps a derivation if it improves the cell. -/
def offer (b : Backpointer P W) (c : Cell P W) : Cell P W :=
  if c.isImprovedBy A b then { c with best := some b } else c

end Cell

/-- The states that end at one position, with their scores. -/
abbrev Column (P W : Type) := List (Cell P W)

/-- The number of states in some columns. -/
def countStates {P W : Type} : List (Column P W) → Nat
  | [] => 0
  | col :: rest => col.length + countStates rest

namespace Column

variable {P W : Type}

/-- The states in order. -/
def states (col : Column P W) : List (State P W) :=
  col.map (·.state)

/-- The cells whose state waits for a category, in order. -/
def waiting (col : Column P W) (c : Category) : Column P W :=
  List.filter (fun cell => cell.state.next?.any (· == c)) col

variable [DecidableEq P] [DecidableEq W]

/-- The cell of a state. -/
def find? (col : Column P W) (s : State P W) : Option (Cell P W) :=
  List.find? (fun c => c.state == s) col

/-- Whether the column holds the state. -/
def contains (col : Column P W) (s : State P W) : Bool :=
  (col.find? s).isSome

/-- Changes the cell of a state, which is added at the end if it is not there. -/
def alter (A : ScoreAlgebra P W) (s : State P W) (f : Cell P W → Cell P W) :
    Column P W → Column P W
  | [] => [f (.fresh A s)]
  | c :: rest => if c.state == s then f c :: rest else c :: alter A s f rest

theorem find?_cons (c : Cell P W) (col : Column P W) (s : State P W) :
    find? (c :: col) s = if c.state == s then some c else find? col s := by
  by_cases h : (c.state == s) = true <;> simp [find?, h]

/-- Equal states have the same cell. -/
theorem find?_congr (col : Column P W) {s t : State P W} (h : (s == t) = true) :
    find? col s = find? col t := by
  induction col with
  | nil => rfl
  | cons c col ih => simp only [find?_cons, BEq.congr_right h, ih]

/-- Only the state that is altered changes; a state that was not there starts out fresh. -/
theorem find?_alter (A : ScoreAlgebra P W) {s : State P W} {f : Cell P W → Cell P W}
    (hf : ∀ c, (f c).state = c.state) (col : Column P W) (t : State P W) :
    find? (alter A s f col) t
      = if s == t then some (f ((find? col s).getD (.fresh A s))) else find? col t := by
  induction col with
  | nil => simp [alter, hf, Cell.fresh, find?]
  | cons c col ih =>
    by_cases hc : (c.state == s) = true
    · have ht : (c.state == t) = (s == t) := BEq.congr_left hc
      by_cases h : (s == t) = true <;> simp [alter, find?_cons, hf, hc, ht, h]
    · simp only [alter, if_neg hc, find?_cons, ih]
      by_cases ht : (c.state == t) = true
      · have : ¬ (s == t) = true := fun h => hc (BEq.trans ht (BEq.symm h))
        simp [ht, this]
      · simp [ht]

/-- Altering keeps the states and their order, and adds a new state at the end. -/
theorem states_alter (A : ScoreAlgebra P W) {s : State P W} {f : Cell P W → Cell P W}
    (hf : ∀ c, (f c).state = c.state) (col : Column P W) :
    states (alter A s f col)
      = if (states col).any (· == s) then states col else states col ++ [s] := by
  induction col with
  | nil => simp [alter, states, hf, Cell.fresh]
  | cons c col ih =>
    by_cases hc : (c.state == s) = true
    · simp [alter, states, hf, hc]
    · simp only [states] at ih
      simp only [states, alter, if_neg hc, List.map_cons, List.any_cons, ih]
      by_cases hm : (col.map (·.state)).any (· == s) = true <;> simp [hc, hm]

/-- The forward score of a state, zero if it is not there. -/
def forward (A : ScoreAlgebra P W) (col : Column P W) (s : State P W) : W :=
  ((col.find? s).map (·.forward)).getD A.zero

/-- The inner score of a state, zero if it is not there. -/
def inner (A : ScoreAlgebra P W) (col : Column P W) (s : State P W) : W :=
  ((col.find? s).map (·.inner)).getD A.zero

/-- The best derivation of a state. -/
def best? (col : Column P W) (s : State P W) : Option (Backpointer P W) :=
  (col.find? s).bind (·.best)

end Column
end StochasticGrammar
