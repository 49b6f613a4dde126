/-!
# Binary floating-point values as exact numbers

A double is decoded into its sign, an integer significand `m` and a power of two `q`, so that its
magnitude is `m · 2^q` without rounding. Text layout, exact summation and comparison with integers
all start from this view.
-/

namespace StochasticGrammar.Numeric

/-- The `n`-th power of two. -/
def pow2 (n : Nat) : Nat :=
  Nat.pow 2 n

/-- A decoded double. The magnitude of a finite value is `significand · 2^exponent`. -/
inductive Binary64 where
  | nan
  | infinite (negative : Bool)
  | finite (negative : Bool) (significand : Nat) (exponent : Int)
  deriving DecidableEq, Repr

namespace Binary64

/-- Decodes the sign bit, the eleven exponent bits and the fifty-two fraction bits. -/
def ofBits (bits : Nat) : Binary64 :=
  let negative := decide (pow2 63 ≤ bits)
  let biased : Nat := bits / pow2 52 % pow2 11
  let fraction : Nat := bits % pow2 52
  if biased = 2047 then
    if fraction = 0 then .infinite negative else .nan
  else if biased = 0 then
    .finite negative fraction (-1074)
  else
    .finite negative (pow2 52 + fraction) ((biased : Int) - 1075)

/-- What a double stands for. -/
def ofFloat (x : Float) : Binary64 :=
  ofBits x.toBits.toNat

/-- The exact integer that a finite value equals, if it equals one. -/
def toInt? : Binary64 → Option Int
  | .finite negative m q =>
    let signed (n : Nat) : Int := if negative then -(n : Int) else n
    if 0 ≤ q then
      some (signed (m * pow2 q.toNat))
    else
      let den := pow2 (-q).toNat
      if m % den = 0 then some (signed (m / den)) else none
  | _ => none

end Binary64

/-- A magnitude as a fraction of two natural numbers; the denominator is never zero. -/
structure Fraction where
  num : Nat
  den : Nat
  deriving DecidableEq, Repr

/-- The fraction `m · 2^q`. -/
def Fraction.ofScaled (m : Nat) (q : Int) : Fraction :=
  if 0 ≤ q then ⟨m * pow2 q.toNat, 1⟩ else ⟨m, pow2 (-q).toNat⟩

/-- The quotient rounded to the nearest natural number, an exact half to the even neighbour. -/
def roundDiv (num den : Nat) : Nat :=
  let q := num / den
  let r := num % den
  if den < 2 * r ∨ (2 * r = den ∧ q % 2 = 1) then q + 1 else q

/-- The rounded quotient is within half a unit of the exact one. -/
theorem roundDiv_bounds (num den : Nat) (h : 0 < den) :
    2 * num ≤ (2 * roundDiv num den + 1) * den ∧ 2 * roundDiv num den * den ≤ 2 * num + den := by
  have hr : num % den < den := Nat.mod_lt _ h
  have hq : den * (num / den) + num % den = num := Nat.div_add_mod num den
  unfold roundDiv
  simp only
  split
  · rename_i hup
    constructor <;> grind
  · rename_i hdown
    constructor <;> grind

end StochasticGrammar.Numeric
