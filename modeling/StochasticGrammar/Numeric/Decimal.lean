import StochasticGrammar.Numeric.Binary64

/-!
# Decimal digits of an exact value

Three ways to choose decimal digits for a positive fraction: a fixed number of places, a fixed
number of significant digits, and the fewest digits that still identify a double. All rounding is
done on the exact value, halves to even.
-/

namespace StochasticGrammar.Numeric

/-- The `n`-th power of ten. -/
def pow10 (n : Nat) : Nat :=
  Nat.pow 10 n

/-- Decimal digits `d₁ d₂ … dₙ` with the point after the first one, times `10^exponent`. -/
structure Decimal where
  digits : List Char
  exponent : Int
  deriving DecidableEq, Repr

namespace Decimal

/-- The decimal digits of a natural number, most significant first. -/
def digitsOf (n : Nat) : List Char :=
  Nat.toDigits 10 n

/-- Zeros in front do not count. -/
theorem ofDigitChars_zeros (n : Nat) : Nat.ofDigitChars 10 (List.replicate n '0') 0 = 0 := by
  induction n with
  | zero => rfl
  | succ n ih => exact ih

/-- The integer part and the fractional part, which has exactly `places` digits. -/
def fixedParts (places : Nat) (v : Fraction) : List Char × List Char :=
  let scaled := roundDiv (v.num * pow10 places) v.den
  let ds := digitsOf scaled
  let padded := List.replicate (places + 1 - ds.length) '0' ++ ds
  padded.splitAt (padded.length - places)

/-- The two parts read back as the rounded number of units, and the second one has the places. -/
theorem fixedParts_reads (places : Nat) (v : Fraction) :
    Nat.ofDigitChars 10 ((fixedParts places v).1 ++ (fixedParts places v).2) 0
        = roundDiv (v.num * pow10 places) v.den ∧
      (fixedParts places v).2.length = places := by
  unfold fixedParts digitsOf
  simp only [List.splitAt_eq, List.take_append_drop, List.length_drop]
  refine ⟨?_, ?_⟩
  · rw [Nat.ofDigitChars_append, ofDigitChars_zeros, Nat.ofDigitChars_ten_toDigits]
  · rw [List.length_append, List.length_replicate]
    omega

/-- **Fixed places are the nearest ones**: what is written is within half a unit of the last
place. -/
theorem fixedParts_bounds (places : Nat) (v : Fraction) (h : 0 < v.den) :
    let written := Nat.ofDigitChars 10 ((fixedParts places v).1 ++ (fixedParts places v).2) 0
    2 * (v.num * pow10 places) ≤ (2 * written + 1) * v.den ∧
      2 * written * v.den ≤ 2 * (v.num * pow10 places) + v.den := by
  rw [(fixedParts_reads places v).1]
  exact roundDiv_bounds _ _ h

/-- The exponent `e` with `10^e ≤ v < 10^(e+1)`; a double's is never below `-324`. -/
def magnitude (v : Fraction) : Int :=
  if v.den ≤ v.num then
    ((digitsOf (v.num / v.den)).length : Int) - 1
  else
    match (List.range 400).find? (fun k => decide (v.den ≤ v.num * pow10 k)) with
    | some k => -(k : Int)
    | none => 0

/-- The fraction measured in units of `10^u`, as a numerator and a denominator. -/
def inUnits (v : Fraction) (u : Int) : Nat × Nat :=
  if 0 ≤ u then (v.num, v.den * pow10 u.toNat) else (v.num * pow10 (-u).toNat, v.den)

/-- Exactly `n` significant digits. A round-up to the next power of ten moves the exponent. -/
def significant (n : Nat) (v : Fraction) : Decimal :=
  if v.num = 0 then
    ⟨List.replicate n '0', 0⟩
  else
    let e := magnitude v
    let (num, den) := inUnits v (e - (n : Int) + 1)
    let k := roundDiv num den
    if pow10 n ≤ k then ⟨digitsOf (pow10 (n - 1)), e + 1⟩ else ⟨digitsOf k, e⟩

/-- The digits without trailing zeros; at least one digit stays. -/
def trim (d : Decimal) : Decimal :=
  match (d.digits.reverse.dropWhile (· == '0')).reverse with
  | [] => { d with digits := ['0'] }
  | ds => { d with digits := ds }

/-- Whether `k` units of `10^u` lie among the reals that round to `m · 2^q`. The interval reaches
half a step up and half a step down (a quarter at a power of two, whose lower neighbour is nearer);
its ends belong to it iff `m` is even. -/
def readsBack (m : Nat) (q : Int) (k : Nat) (u : Int) : Bool :=
  let quarter := Fraction.ofScaled 1 (q - 2)
  let value := if 0 ≤ u then (⟨k * pow10 u.toNat, 1⟩ : Fraction) else ⟨k, pow10 (-u).toNat⟩
  let below := if m = pow2 52 ∧ -1074 < q then 4 * m - 1 else 4 * m - 2
  let above := 4 * m + 2
  let lhs := value.num * quarter.den
  let low := below * quarter.num * value.den
  let high := above * quarter.num * value.den
  if m % 2 = 0 then decide (low ≤ lhs ∧ lhs ≤ high) else decide (low < lhs ∧ lhs < high)

/-- The nearest `n`-digit decimal that reads back as `m · 2^q`, if there is one: of the value's two
neighbours on the grid of `n` digits those that read back, the nearer first. -/
def candidate? (m : Nat) (q : Int) (n : Nat) : Option Decimal :=
  let v := Fraction.ofScaled m q
  let e := magnitude v
  let u := e - (n : Int) + 1
  let (num, den) := inUnits v u
  let near := roundDiv num den
  let far := if near * den ≤ num then near + 1 else near - 1
  let pick (k : Nat) : Decimal :=
    if pow10 n ≤ k then ⟨digitsOf (pow10 (n - 1)), e + 1⟩ else ⟨digitsOf k, e⟩
  if readsBack m q near u then some (pick near)
  else if readsBack m q far u then some (pick far)
  else none

/-- The fewest digits that read back as `m · 2^q`; seventeen always do. -/
def shortest (m : Nat) (q : Int) : Decimal :=
  if m = 0 then ⟨['0'], 0⟩
  else ((List.range' 1 17).findSome? (candidate? m q)).getD (significant 17 (.ofScaled m q))

end Decimal
end StochasticGrammar.Numeric
