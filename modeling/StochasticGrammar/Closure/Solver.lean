import StochasticGrammar.Closure.Radius
import StochasticGrammar.Score.Probability

/-!
# Solving linear systems

A closure needs two numbers-only services: the inverse of a matrix, and the spectral radius, which
decides whether the series of its powers converges. They are given as a record, so that statements
about closures can assume exact ones; the record for doubles is at the end.
-/

namespace StochasticGrammar

/-- The linear algebra that closures are computed with. -/
structure Solver (P : Type) where
  /-- The inverse of a matrix, asked for only if one minus it has a radius below one. Such a matrix
  is invertible, so there is no way to answer that it is singular. -/
  inverse : {n : Nat} → Square n P → Square n P
  /-- The greatest magnitude of an eigenvalue. -/
  radius : {n : Nat} → Square n P → P

namespace Elimination

variable {P : Type} [Probability P] {n : Nat}

/-- Subtracts a multiple of a number. A product with zero is zero whatever the other factor, also if
that has grown beyond all bounds. -/
def subtractMultiple (x factor y : P) : P :=
  if (factor < 0 ∨ 0 < factor) ∧ (y < 0 ∨ 0 < y) then x - factor * y else x

/-- Clears a column in both halves of a system: the pivot row is divided by its pivot, then
subtracted from every other row as often as that row's entry says. -/
def clearColumn (c : Fin n) (a b : Square n P) : Square n P × Square n P :=
  let pivot := a.entry c c
  let clear (m : Square n P) : Square n P :=
    .ofFn fun i j =>
      if i = c then m.entry c j / pivot
      else subtractMultiple (m.entry i j) (a.entry i c) (m.entry c j / pivot)
  (clear a, clear b)

/-- The inverse by elimination along the diagonal, from the last column to the first. If the matrix
is one minus a matrix of non-negative entries whose powers vanish, every pivot is positive and
entries off the diagonal only grow in magnitude, so that small ones lose nothing to
cancellation. -/
def inverse (a : Square n P) : Square n P :=
  ((List.finRange n).foldr (fun c system => clearColumn c system.1 system.2)
    (a, .ofFn fun i j => if i = j then 1 else 0)).2

end Elimination

/-- The solver that runs: elimination in doubles, and the nearest double to the exact radius. -/
def floatSolver : Solver Float where
  inverse := Elimination.inverse
  radius := Radius.ofMatrix

end StochasticGrammar
