import StochasticGrammar.Numeric.Binary64

/-!
# The nearest double

An exact magnitude is rounded to a double once, halves to even. The bits of non-negative doubles
are ordered as the doubles are: `k` steps of `2^q` have the bits `(q + 1074) · 2^52 + k`, whether
the double is subnormal or not, and also if rounding up carries into the next power of two.

Finite doubles are whole multiples of `2^-1074`. A sum of them is taken over these integers and
rounded once at the end, so the order of the terms does not matter.
-/

namespace StochasticGrammar.Numeric

/-- The bits of infinity. -/
def infinityBits : Nat :=
  2047 * pow2 52

/-- The exponent of the step between doubles at a positive fraction: fifty-three significant bits,
but never below the step of the subnormals. -/
def stepOf (v : Fraction) : Int :=
  let e : Int := (Nat.log2 v.num : Int) - (Nat.log2 v.den : Int)
  let power := Fraction.ofScaled 1 e
  let top := if power.num * v.den ≤ v.num * power.den then e else e - 1
  max (top - 52) (-1074)

/-- The bits of the double nearest to a fraction. -/
def nearestBits (v : Fraction) : Nat :=
  if v.num = 0 then 0
  else
    let q := stepOf v
    let step := Fraction.ofScaled 1 q
    let k := roundDiv (v.num * step.den) (v.den * step.num)
    min ((q + 1074).toNat * pow2 52 + k) infinityBits

/-- The double nearest to a fraction. -/
def nearest (v : Fraction) : Float :=
  Float.ofBits (nearestBits v).toUInt64

example : [⟨1, 10⟩, ⟨1, 3⟩, ⟨9007199254740993, 1⟩, ⟨0, 7⟩].map (fun v => (nearest v).toBits)
    = [0.1, 1.0 / 3.0, 9007199254740992.0, 0.0].map Float.toBits := by
  decide +kernel

/-! ## Exactly rounded sums -/

/-- The value in units of `2^-1074`; zero for values that are not finite. -/
def unitsOf (x : Float) : Int :=
  match Binary64.ofFloat x with
  | .finite negative m q =>
    let n := m * pow2 (q + 1074).toNat
    if negative then -(n : Int) else n
  | _ => 0

/-- The double nearest to `n` units of `2^-1074`. -/
def ofUnits (n : Int) : Float :=
  let magnitude := nearest (.ofScaled n.natAbs (-1074))
  if n < 0 then -magnitude else magnitude

/-- The sum of finite doubles, rounded once. -/
def exactSum (xs : List Float) : Float :=
  ofUnits (xs.foldl (fun n x => n + unitsOf x) 0)

end StochasticGrammar.Numeric
