import StochasticGrammar.Score.Linear

/-!
# Logarithmic scores

Scores that are natural logarithms of probabilities, so that long derivations do not vanish. The
arithmetic of logarithms is a record of its own: doubles give the scale that runs, and the extended
reals would give an exact one.
-/

namespace StochasticGrammar

/-- Logarithms of type `W` of probabilities of type `P`. -/
structure LogScale (P W : Type) where
  /-- The logarithm of zero, below every other one. -/
  bottom : W
  /-- The logarithm of one. -/
  unit : W
  /-- The sum, which stands for a product. -/
  plus : W → W → W
  /-- The difference, which stands for a quotient. -/
  minus : W → W → W
  lt : W → W → Bool
  isBottom : W → Bool
  /-- The value of `log (1 + exp x)` for `x` at most the logarithm of one. -/
  softplus : W → W
  /-- The logarithm of a positive number. -/
  log : P → W
  /-- The number that has this logarithm; none if it is too large. -/
  exp : W → Option P

namespace LogScale

variable {P W : Type} (L : LogScale P W)

/-- The logarithm of the sum of two numbers given by their logarithms. The greater one is taken out
first, so that what remains is at most one. -/
def logSum (a b : W) : W :=
  let (hi, lo) := if L.lt a b then (b, a) else (a, b)
  if L.isBottom lo then hi else L.plus hi (L.softplus (L.minus lo hi))

/-- The logarithm of a probability; that of zero is the bottom. -/
def ofProbability [Probability P] (p : P) : W :=
  if 0 < p then L.log p else L.bottom

/-- The logarithm of the product; the bottom absorbs everything. -/
def logProd (a b : W) : W :=
  if L.isBottom a || L.isBottom b then L.bottom else L.plus a b

end LogScale

/-- Logarithms as scores. -/
def logScores {P W : Type} [Probability P] (L : LogScale P W) : ScoreAlgebra P W where
  name := "LogSemiring"
  zero := L.bottom
  one := L.unit
  add := L.logSum
  mul := L.logProd
  lt := L.lt
  isZero := L.isBottom
  ofProbability := L.ofProbability
  toProbability := L.exp

/-- The value of `log (1 + x)` without losing a small `x`: the rounding error of `1 + x` cancels
in the quotient. -/
def log1p (x : Float) : Float :=
  let u := 1.0 + x
  if u == 1.0 then x else Float.log u * x / (u - 1.0)

/-- Natural logarithms of doubles, kept as doubles. -/
def floatLogScale : LogScale Float Float where
  bottom := -1.0 / 0.0
  unit := 0.0
  plus := (· + ·)
  minus := (· - ·)
  lt a b := decide (a < b)
  isBottom x := x == -1.0 / 0.0
  softplus x := log1p (Float.exp x)
  log := Float.log
  exp x := let y := Float.exp x; if y.isInf && x.isFinite then none else some y

end StochasticGrammar
