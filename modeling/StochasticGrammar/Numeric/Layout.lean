import StochasticGrammar.Numeric.Decimal

/-!
# Number text

Doubles are written in three layouts: with a fixed number of places, with a number of significant
digits, and with the fewest digits that identify the value.
-/

namespace StochasticGrammar.Numeric

namespace Layout

/-- The text of a sign. -/
def sign (negative : Bool) : String :=
  if negative then "-" else ""

/-- Writes digits with the point after the first one and an exponent of at least two digits. -/
def scientific (d : Decimal) : String :=
  let mantissa := match d.digits with
    | [] => []
    | [c] => [c]
    | c :: rest => c :: '.' :: rest
  let power := Decimal.digitsOf d.exponent.natAbs
  let padded := List.replicate (2 - power.length) '0' ++ power
  String.ofList mantissa ++ (if d.exponent < 0 then "e-" else "e+") ++ String.ofList padded

/-- Writes digits in positional notation, without a point when none follow it. -/
def positional (d : Decimal) : String :=
  let (whole, part) :=
    if d.exponent < 0 then
      (['0'], List.replicate (d.exponent.natAbs - 1) '0' ++ d.digits)
    else
      let n := d.exponent.toNat + 1
      (d.digits.take n ++ List.replicate (n - d.digits.length) '0', d.digits.drop n)
  match part with
  | [] => String.ofList whole
  | _ => String.ofList (whole ++ '.' :: part)

/-- Writes a value by its kind; a layout gives the text of a finite magnitude. -/
def write (finite : Nat → Int → String) (x : Float) : String :=
  match Binary64.ofFloat x with
  | .nan => "nan"
  | .infinite negative => sign negative ++ "inf"
  | .finite negative m q => sign negative ++ finite m q

end Layout

/-- Writes exactly `places` digits after the point. -/
def fixed (places : Nat) : Float → String :=
  Layout.write fun m q =>
    match Decimal.fixedParts places (.ofScaled m q) with
    | (whole, []) => String.ofList whole
    | (whole, part) => String.ofList (whole ++ '.' :: part)

/-- Writes at most `n` significant digits, trailing zeros dropped; an exponent is written when the
value is below `10^-4` or has more than `n` digits before the point. -/
def general (n : Nat) : Float → String :=
  Layout.write fun m q =>
    let d := Decimal.significant n (.ofScaled m q)
    if d.exponent < -4 ∨ (n : Int) ≤ d.exponent then Layout.scientific d.trim
    else Layout.positional d.trim

/-- Writes the fewest digits that identify the value, always with a point or an exponent; an
exponent is written when the value is below `10^-4` or not below `10^16`. -/
def shortest : Float → String :=
  Layout.write fun m q =>
    let d := (Decimal.shortest m q).trim
    if d.exponent < -4 ∨ 16 ≤ d.exponent then Layout.scientific d
    else if d.digits.length ≤ d.exponent.toNat + 1 ∧ 0 ≤ d.exponent then
      Layout.positional d ++ ".0"
    else Layout.positional d

example : [0.1, 1.0, 1e16, 1e-05, -0.0].map shortest
    = ["0.1", "1.0", "1e+16", "1e-05", "-0.0"] := by
  decide +kernel

example : [0.5, 100000000, 0.000123456789].map (general 8)
    = ["0.5", "1e+08", "0.00012345679"] := by
  decide +kernel

example : [0.125, 2.0 / 3.0].map (fixed 2) = ["0.12", "0.67"] := by
  decide +kernel

end StochasticGrammar.Numeric
