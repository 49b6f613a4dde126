import StochasticGrammar.Score.Probability

/-!
# Score algebras

Every score that a parser keeps is an element of one algebra: scores of alternatives are added,
scores of parts are multiplied, and the order follows the probabilities that the scores stand for.
In the plain algebra the scores are the probabilities themselves.
-/

namespace StochasticGrammar

/-- Scores of type `W` that stand for probabilities of type `P`. -/
structure ScoreAlgebra (P W : Type) where
  /-- How the algebra is named in the description of a grammar. -/
  name : String
  /-- The score of the impossible. -/
  zero : W
  /-- The score of the certain. -/
  one : W
  /-- Combines alternatives. -/
  add : W → W → W
  /-- Combines parts. -/
  mul : W → W → W
  /-- Whether the first score stands for a smaller probability than the second. -/
  lt : W → W → Bool
  /-- Whether the score is the one of the impossible. -/
  isZero : W → Bool
  /-- The score of a probability. -/
  ofProbability : P → W
  /-- The probability of a score; none if it is too large a number. -/
  toProbability : W → Option P

namespace ScoreAlgebra

variable {P W : Type} (A : ScoreAlgebra P W)

/-- The product from left to right, starting at one. -/
def times (xs : List W) : W :=
  xs.foldl A.mul A.one

/-- The sum from left to right, starting at zero. -/
def sum (xs : List W) : W :=
  xs.foldl A.add A.zero

/-- Whether the first score is strictly better than the second. -/
def isBetter (a b : W) : Bool :=
  A.lt b a

/-- How the first score compares with the second. Scores that are unordered compare as equal. -/
def compare (a b : W) : Ordering :=
  if A.lt b a then .gt else if A.lt a b then .lt else .eq

/-- The algebra in the description of a grammar. -/
def display : String :=
  A.name ++ "()"

end ScoreAlgebra

/-- Plain probabilities as scores. -/
def linearScores (P : Type) [Probability P] [BEq P] : ScoreAlgebra P P where
  name := "ProbabilitySemiring"
  zero := 0
  one := 1
  add := (· + ·)
  mul := (· * ·)
  lt a b := decide (a < b)
  isZero x := x == 0
  ofProbability p := p
  toProbability x := some x

end StochasticGrammar
