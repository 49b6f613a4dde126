import StochasticGrammar.Closure.Reach
import StochasticGrammar.Closure.Solver
import StochasticGrammar.Table

/-!
# Star closures

For a matrix `M` of weights between named nodes, the star closure is the series `1 + M + M² + …`,
which is the inverse of `1 - M` when it converges. An entry is kept only where a path leads, so that
unrelated nodes do not pick up rounding errors.
-/

namespace StochasticGrammar

/-- Why a closure cannot be formed. -/
inductive ClosureError (α P : Type) where
  /-- An edge touches a node that was not named. -/
  | unknown (name : α)
  /-- The edges between two nodes add up to more than any number. -/
  | unbounded
  /-- The series diverges: the spectral radius is not below one. -/
  | divergent (radius : P)

namespace Star

variable {α P : Type} [BEq α] [Probability P]

/-- The last place at which a name stands. -/
def lastIndex? (names : List α) (x : α) : Option (Fin names.length) :=
  (List.finRange names.length).reverse.find? fun i => names.get i == x

/-- The ends of an edge as places, the source looked up first. -/
def resolve (names : List α) (edge : α × α × P) :
    Except (ClosureError α P) (Fin names.length × Fin names.length × P) :=
  match lastIndex? names edge.1, lastIndex? names edge.2.1 with
  | none, _ => .error (.unknown edge.1)
  | _, none => .error (.unknown edge.2.1)
  | some i, some j => .ok (i, j, edge.2.2)

/-- The matrix of summed edge weights. -/
def weights {n : Nat} (edges : List (Fin n × Fin n × P)) : Square n P :=
  .ofFn fun i j =>
    Probability.sum ((edges.filter fun e => decide (e.1 = i ∧ e.2.1 = j)).map (·.2.2))

/-- Where the weight is positive. -/
def support {n : Nat} (m : Square n P) : Square n Bool :=
  .ofFn fun i j => decide (0 < m.entry i j)

/-- One minus the matrix. -/
def complement {n : Nat} (m : Square n P) : Square n P :=
  .ofFn fun i j => (if i = j then 1 else 0) - m.entry i j

/-- The radius of the matrix; that of a zero matrix is zero without asking the solver. -/
def radiusOf [DecidableEq P] (solver : Solver P) {n : Nat} (m : Square n P) : P :=
  if m.toList.all (fun p => decide (p = 0)) then 0 else solver.radius m

/-- The entries of a matrix where a relation holds, as a table of rows by name. -/
def tabulate (names : List α) (values : Square names.length P)
    (present : Square names.length Bool) : Table α (Table α P) :=
  (List.finRange names.length).foldl
    (fun rows i =>
      rows.insert (names.get i)
        (((List.finRange names.length).filter (present.entry i)).foldl
          (fun row j => row.insert (names.get j) (values.entry i j)) []))
    []

/-- The star closure of a weighted graph. A name given twice counts where it stands last; the rows
and columns come in the order in which their names come first. The check of the radius comes before
the inverse: behind it one minus the matrix is invertible, so with an exact inverse no closure fails
for being singular, and there is no error for it. -/
def closure [DecidableEq P] (solver : Solver P) (names : List α) (edges : List (α × α × P)) :
    Except (ClosureError α P) (Table α (Table α P)) :=
  if names.isEmpty then .ok []
  else do
    let m := weights (← edges.mapM (resolve names))
    if m.toList.any (fun p => !Probability.isFinite p) then throw .unbounded
    let radius := radiusOf solver m
    if 1 - 1e-12 ≤ radius then throw (.divergent radius)
    return tabulate names (solver.inverse (complement m)) (Reach.closure (support m))

end Star
end StochasticGrammar
