import StochasticGrammar.Chart.Column

/-!
# Charts

A chart is a sequence of columns, one per position of the input. States are put into the column of
their own position, which has to exist.
-/

namespace StochasticGrammar

/-- The columns of a chart. -/
structure Chart (P W : Type) where
  columns : List (Column P W)

/-- A position that the chart does not have. -/
inductive ChartError where
  | outOfRange
  deriving DecidableEq, Repr

/-- The wording of a chart's refusal. -/
def ChartError.message : ChartError → String
  | outOfRange => "list index out of range"

namespace Chart

variable {P W : Type}

/-- A chart without positions. -/
def empty : Chart P W :=
  ⟨[]⟩

/-- How many positions the chart has. -/
def length (chart : Chart P W) : Nat :=
  chart.columns.length

/-- The chart with empty columns added up to a position. -/
def ensure (chart : Chart P W) (k : Nat) : Chart P W :=
  ⟨chart.columns ++ List.replicate (k + 1 - chart.columns.length) []⟩

/-- The column at a position, empty beyond the end. -/
def column (chart : Chart P W) (k : Nat) : Column P W :=
  (chart.columns[k]?).getD []

/-- The chart with the column at a position replaced. -/
def setColumn (chart : Chart P W) (k : Nat) (col : Column P W) : Chart P W :=
  ⟨chart.columns.set k col⟩

/-- How many states the chart holds. -/
def size (chart : Chart P W) : Nat :=
  countStates chart.columns

/-- The complete states of a category at a position. -/
def completed (chart : Chart P W) (k : Nat) (c : Category) : List (State P W) :=
  ((chart.column k).map (·.state)).filter fun s => s.isComplete && s.rule.lhs == c

/-- The states at a position whose next symbol is the same as a category. -/
def waitingFor (chart : Chart P W) (k : Nat) (c : Category) :
    Except ChartError (List (State P W)) :=
  match chart.columns[k]? with
  | none => .error .outOfRange
  | some col => .ok ((col.map (·.state)).filter fun s => s.next?.any (· == c))

variable [DecidableEq P] [DecidableEq W]

/-- Whether the chart holds the state. -/
def contains (chart : Chart P W) (s : State P W) : Bool :=
  (chart.column s.position).contains s

/-- The forward score of a state, zero if it is not there. -/
def forward (A : ScoreAlgebra P W) (chart : Chart P W) (s : State P W) : W :=
  (chart.column s.position).forward A s

/-- The inner score of a state, zero if it is not there. -/
def inner (A : ScoreAlgebra P W) (chart : Chart P W) (s : State P W) : W :=
  (chart.column s.position).inner A s

/-- The best derivation of a state. -/
def best? (chart : Chart P W) (s : State P W) : Option (Backpointer P W) :=
  (chart.column s.position).best? s

/-- Changes the cell of a state, which is added if it is not there. -/
def alter (A : ScoreAlgebra P W) (chart : Chart P W) (s : State P W)
    (f : Cell P W → Cell P W) : Except ChartError (Chart P W) :=
  match chart.columns[s.position]? with
  | none => .error .outOfRange
  | some col => .ok (chart.setColumn s.position (col.alter A s f))

/-- Adds a state; a state that is already there stays as it is. -/
def add (A : ScoreAlgebra P W) (chart : Chart P W) (s : State P W) :
    Except ChartError (Chart P W) :=
  chart.alter A s id

/-- Adds to the forward score of a state. -/
def addForward (A : ScoreAlgebra P W) (chart : Chart P W) (s : State P W) (w : W) :
    Except ChartError (Chart P W) :=
  chart.alter A s (Cell.addForward A w)

/-- Adds to the inner score of a state. -/
def addInner (A : ScoreAlgebra P W) (chart : Chart P W) (s : State P W) (w : W) :
    Except ChartError (Chart P W) :=
  chart.alter A s (Cell.addInner A w)

/-- Keeps a derivation of a state if it is the first one or strictly better. -/
def offer (A : ScoreAlgebra P W) (chart : Chart P W) (s : State P W) (b : Backpointer P W) :
    Except ChartError (Chart P W) :=
  chart.alter A s (Cell.offer A b)

/-- Whether a derivation of a state would be kept. -/
def isImprovedBy (A : ScoreAlgebra P W) (chart : Chart P W) (s : State P W)
    (b : Backpointer P W) : Bool :=
  ((chart.column s.position).find? s).all (Cell.isImprovedBy A b)

end Chart
end StochasticGrammar
