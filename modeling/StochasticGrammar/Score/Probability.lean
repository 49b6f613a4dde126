import StochasticGrammar.Numeric.Nearest

/-!
# Arithmetic of probabilities

What a grammar asks of the numbers that its probabilities are: the field operations, an order that
can be decided, a test for finiteness and sums that are rounded at most once. Doubles provide it;
so does every ordered field, in which all of it is exact.
-/

namespace StochasticGrammar

/-- Numbers that can serve as probabilities. -/
class Probability (P : Type) extends
    Zero P, One P, Add P, Sub P, Mul P, Div P, LT P, LE P, OfScientific P where
  decLt : DecidableLT P
  decLe : DecidableLE P
  /-- Whether the number is neither infinite nor undefined. -/
  isFinite : P → Bool
  /-- The sum of finite numbers, rounded once if at all. -/
  total : List P → P

namespace Probability

variable {P : Type} [Probability P]

instance : DecidableLT P := Probability.decLt

instance : DecidableLE P := Probability.decLe

/-- Whether a number may be the probability of a rule: positive and at most one. -/
def IsProper (p : P) : Prop :=
  isFinite p = true ∧ 0 < p ∧ p ≤ 1

instance (p : P) : Decidable (IsProper p) :=
  inferInstanceAs (Decidable (_ ∧ _ ∧ _))

/-- The sum from left to right, starting at zero. -/
def sum (ps : List P) : P :=
  ps.foldl (· + ·) 0

/-- The product from left to right, starting at one. -/
def prod (ps : List P) : P :=
  ps.foldl (· * ·) 1

/-- The distance of two numbers. -/
def dist (a b : P) : P :=
  if a < b then b - a else a - b

/-- The greatest number of a list by strict comparison from the left; zero for the empty list. -/
def greatest : List P → P
  | [] => 0
  | p :: ps => ps.foldl (fun best q => if best < q then q else best) p

end Probability

instance : Probability Float where
  zero := 0.0
  one := 1.0
  decLt := inferInstance
  decLe := inferInstance
  isFinite := Float.isFinite
  total := Numeric.exactSum

end StochasticGrammar
