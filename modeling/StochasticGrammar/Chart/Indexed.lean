import StochasticGrammar.Chart.Basic
import StochasticGrammar.Table

/-!
# Charts with an index

A chart can be kept as four lists of tables side by side, with a table of each kind for every
position: the states with their best derivations, the states that wait for a symbol filed under that
symbol, the forward scores and the inner scores. A state enters through `add` only, which files it
as well; the calls that score a state or offer a derivation of it enter it first.

Every change returns the chart that it leaves behind, also where it fails on the way.
-/

namespace StochasticGrammar

/-- The two scores of a state. -/
inductive ScoreKind where
  | forward
  | inner
  deriving DecidableEq, Repr

/-- A change that a chart is asked for. -/
inductive ChartCall (P W : Type) where
  | ensure (k : Nat)
  | add (s : State P W)
  | addScore (kind : ScoreKind) (s : State P W) (w : W)
  | offer (s : State P W) (b : Backpointer P W)

/-- The table of a position, empty beyond the end. -/
def tableAt {κ ν : Type} (tables : List (Table κ ν)) (k : Nat) : Table κ ν :=
  (tables[k]?).getD []

/-- A chart of four tables for every position. -/
structure IndexedChart (P W : Type) where
  /-- The states in order, with the best derivations found so far. -/
  items : List (Table (State P W) (Option (Backpointer P W)))
  /-- The states that wait for a symbol, in order. -/
  waiting : List (Table Category (List (State P W)))
  forward : List (Table (State P W) W)
  inner : List (Table (State P W) W)

namespace IndexedChart

variable {P W : Type}

/-- A chart without positions. -/
def empty : IndexedChart P W :=
  ⟨[], [], [], []⟩

/-- How many positions the chart has. -/
def length (c : IndexedChart P W) : Nat :=
  c.items.length

/-- The tables of one kind of score. -/
def scores (c : IndexedChart P W) : ScoreKind → List (Table (State P W) W)
  | .forward => c.forward
  | .inner => c.inner

/-- The chart with other tables of one kind of score. -/
def setScores (c : IndexedChart P W) (kind : ScoreKind) (tables : List (Table (State P W) W)) :
    IndexedChart P W :=
  match kind with
  | .forward => { c with forward := tables }
  | .inner => { c with inner := tables }

/-- The chart with one more position. -/
def push (c : IndexedChart P W) : IndexedChart P W :=
  ⟨c.items ++ [[]], c.waiting ++ [[]], c.forward ++ [[]], c.inner ++ [[]]⟩

/-- The chart with positions added until there is a given one. -/
def ensure (c : IndexedChart P W) (k : Nat) : IndexedChart P W :=
  Nat.repeat push (k + 1 - c.length) c

/-- The states at a position, in order. -/
def states (c : IndexedChart P W) (k : Nat) : List (State P W) :=
  (tableAt c.items k).keys

/-- The states at a position that are filed under a symbol. -/
def waitingOn (c : IndexedChart P W) (k : Nat) (x : Category) :
    Except ChartError (List (State P W)) :=
  match c.waiting[k]? with
  | none => .error .outOfRange
  | some index => .ok ((index.get? x).getD [])

variable [DecidableEq P] [DecidableEq W]

/-- Whether the chart holds the state. -/
def contains (c : IndexedChart P W) (s : State P W) : Bool :=
  ((tableAt c.items s.position).get? s).isSome

/-- What the table of its position has for a state, a default if it has nothing. -/
def valueAt {ν : Type} (z : ν) (tables : List (Table (State P W) ν)) (s : State P W) : ν :=
  ((tableAt tables s.position).get? s).getD z

/-- The best derivation of a state. -/
def best? (c : IndexedChart P W) (s : State P W) : Option (Backpointer P W) :=
  valueAt none c.items s

/-- A score of a state, zero if it has none. -/
def score (A : ScoreAlgebra P W) (c : IndexedChart P W) (kind : ScoreKind) (s : State P W) : W :=
  valueAt A.zero (c.scores kind) s

/-- Enters a state and files it under its next symbol; tells whether it is new. -/
def add (c : IndexedChart P W) (s : State P W) : IndexedChart P W × Except ChartError Bool :=
  match c.items[s.position]? with
  | none => (c, .error .outOfRange)
  | some states =>
    if (states.get? s).isSome then (c, .ok false)
    else
      let entered := { c with items := c.items.set s.position (states.insert s none) }
      match s.next? with
      | none => (entered, .ok true)
      | some x =>
        match entered.waiting[s.position]? with
        | none => (entered, .error .outOfRange)
        | some index =>
          let filed := index.insert x ((index.get? x).getD [] ++ [s])
          ({ entered with waiting := entered.waiting.set s.position filed }, .ok true)

/-- Enters a state and adds to a score of it. -/
def addScore (A : ScoreAlgebra P W) (c : IndexedChart P W) (kind : ScoreKind) (s : State P W)
    (w : W) :
    IndexedChart P W × Except ChartError Unit :=
  match c.add s with
  | (c, .error e) => (c, .error e)
  | (c, .ok _) =>
    match (c.scores kind)[s.position]? with
    | none => (c, .error .outOfRange)
    | some scores =>
      let total := A.add ((scores.get? s).getD A.zero) w
      (c.setScores kind ((c.scores kind).set s.position (scores.insert s total)), .ok ())

/-- Enters a state and keeps a derivation of it if it is the first one or strictly better; tells
whether it was kept. -/
def offer (A : ScoreAlgebra P W) (c : IndexedChart P W) (s : State P W) (b : Backpointer P W) :
    IndexedChart P W × Except ChartError Bool :=
  match c.add s with
  | (c, .error e) => (c, .error e)
  | (c, .ok _) =>
    match c.items[s.position]? with
    | none => (c, .error .outOfRange)
    | some states =>
      -- the state has just been entered, so that only a derivation of it can be missing
      if ((states.get? s).getD none).all fun old => A.isBetter b.score old.score then
        ({ c with items := c.items.set s.position (states.insert s (some b)) }, .ok true)
      else (c, .ok false)

/-- Makes a change; the answer, if the change has one, tells whether it did anything. -/
def perform (A : ScoreAlgebra P W) (c : IndexedChart P W) :
    ChartCall P W → IndexedChart P W × Except ChartError (Option Bool)
  | .ensure k => (c.ensure k, .ok none)
  | .add s => ((c.add s).1, (c.add s).2.map some)
  | .addScore kind s w => ((c.addScore A kind s w).1, (c.addScore A kind s w).2.map fun _ => none)
  | .offer s b => ((c.offer A s b).1, (c.offer A s b).2.map some)

/-- Makes one change after the other, whether they succeed or not. -/
def performAll (A : ScoreAlgebra P W) (c : IndexedChart P W) (calls : List (ChartCall P W)) :
    IndexedChart P W :=
  calls.foldl (fun c call => (c.perform A call).1) c

end IndexedChart

namespace Chart

variable {P W : Type}

/-- The chart after a change with its answer; a change that fails leaves it as it is. -/
def afterwards (chart : Chart P W) (changed : Except ChartError (Chart P W))
    (answer : Option Bool) : Chart P W × Except ChartError (Option Bool) :=
  match changed with
  | .error e => (chart, .error e)
  | .ok chart => (chart, .ok answer)

variable [DecidableEq P] [DecidableEq W]

/-- A score of a state, zero if it is not there. -/
def score (A : ScoreAlgebra P W) (chart : Chart P W) : ScoreKind → State P W → W
  | .forward, s => chart.forward A s
  | .inner, s => chart.inner A s

/-- Adds to a score of a state. -/
def addScore (A : ScoreAlgebra P W) (chart : Chart P W) (kind : ScoreKind) (s : State P W) (w : W) :
    Except ChartError (Chart P W) :=
  match kind with
  | .forward => chart.addForward A s w
  | .inner => chart.addInner A s w

/-- Makes a change; the answer, if the change has one, tells whether it did anything. -/
def perform (A : ScoreAlgebra P W) (chart : Chart P W) :
    ChartCall P W → Chart P W × Except ChartError (Option Bool)
  | .ensure k => (chart.ensure k, .ok none)
  | .add s => chart.afterwards (chart.add A s) (some (!chart.contains s))
  | .addScore kind s w => chart.afterwards (chart.addScore A kind s w) none
  | .offer s b => chart.afterwards (chart.offer A s b) (some (chart.isImprovedBy A s b))

/-- Makes one change after the other, whether they succeed or not. -/
def performAll (A : ScoreAlgebra P W) (chart : Chart P W) (calls : List (ChartCall P W)) :
    Chart P W :=
  calls.foldl (fun chart call => (chart.perform A call).1) chart

end Chart
end StochasticGrammar
