import StochasticGrammar.Closure.Reach
import StochasticGrammar.Numeric.Binary64

/-!
# Spectral radius

The greatest eigenvalue of a matrix without negative entries, as the nearest double. It lies below a
bound `r` if and only if all leading principal minors of `r - M` are positive, which is decided in
integers, and the doubles are searched for the place where that begins to hold. Only nodes that lie
on common cycles matter to each other, so each such block is searched on its own.
-/

namespace StochasticGrammar.Radius

/-- A magnitude `significand · 2^exponent`. -/
abbrev Scaled := Nat × Int

/-- The magnitude with the given bits. -/
def scaledOfBits (bits : Nat) : Scaled :=
  match Numeric.Binary64.ofBits bits with
  | .finite _ m q => (m, q)
  | _ => (0, 0)

/-- The exact magnitude of a finite double. -/
def scaled (x : Float) : Scaled :=
  scaledOfBits x.toBits.toNat

/-- Subtracts the pivot row from another one so that its first entry vanishes, and drops that entry.
The rows keep integer entries: the previous pivot divides every difference. -/
def reduceRow (previous pivot : Int) (row : List Int) : List Int → List Int
  | [] => []
  | x :: xs => List.zipWith (fun a b => (pivot * a - x * b) / previous) xs row

/-- Whether all leading principal minors of an integer matrix are positive. The pivots of an
elimination without fractions are these minors. -/
def minorsPositive (previous : Int) : List (List Int) → Bool
  | [] => true
  | [] :: _ => false
  | (pivot :: row) :: rest =>
    decide (0 < pivot) && minorsPositive pivot (rest.map (reduceRow previous pivot row))
termination_by rows => rows.length

/-- A bound on the diagonal minus a matrix, in units of the least exponent that occurs. -/
def difference (bound : Scaled) (block : List (List Scaled)) : List (List Int) :=
  let positive := block.flatten.filter fun e => e.1 != 0
  let unit := positive.foldl (fun u e => min u e.2) bound.2
  let whole (e : Scaled) : Int := ((e.1 * Numeric.pow2 (e.2 - unit).toNat : Nat) : Int)
  block.zipIdx.map fun (row, i) =>
    row.zipIdx.map fun (e, j) => (if i = j then whole bound else 0) - whole e

/-- Whether the radius of a matrix lies below a bound. -/
def isBelow (block : List (List Scaled)) (bound : Scaled) : Bool :=
  minorsPositive 1 (difference bound block)

/-- The last place from `low` on before a test begins to hold, which it does not at `low` and does
at `high`; every step halves what is left. -/
def lastBefore (test : Nat → Bool) : Nat → Nat → Nat → Nat
  | 0, low, _ => low
  | steps + 1, low, high =>
    let middle := (low + high) / 2
    if test middle then lastBefore test steps low middle else lastBefore test steps middle high

/-- **The search ends where the test begins to hold**, if it has as many halvings as its interval
needs: at the place found the test does not hold yet, at the next one it does. -/
theorem lastBefore_spec (test : Nat → Bool) (steps : Nat) {low high : Nat} (hlt : low < high)
    (hsteps : high ≤ low + Numeric.pow2 steps) (hlow : test low = false)
    (hhigh : test high = true) :
    test (lastBefore test steps low high) = false ∧
      test (lastBefore test steps low high + 1) = true := by
  induction steps generalizing low high with
  | zero =>
    have hnext : high = low + 1 := Nat.le_antisymm hsteps hlt
    rw [lastBefore]
    exact ⟨hlow, hnext ▸ hhigh⟩
  | succ steps ih =>
    have hpow : Numeric.pow2 (steps + 1) = Numeric.pow2 steps * 2 := rfl
    rw [lastBefore]
    split
    · next hmiddle =>
      have hne : low ≠ (low + high) / 2 := by
        intro heq
        rw [← heq, hlow] at hmiddle
        cases hmiddle
      exact ih (by omega) (by omega) hlow hmiddle
    · next hmiddle =>
      exact ih (by omega) (by omega) (Bool.not_eq_true _ ▸ hmiddle) hhigh

/-- Doubles have sixty-four bits, so sixty-four halvings lead to the two neighbouring doubles that
the radius of a block lies between. -/
theorem isBelow_lastBefore {block : List (List Scaled)} {low high : Nat} (hlt : low < high)
    (hbits : high ≤ Numeric.pow2 64) (hlow : isBelow block (scaledOfBits low) = false)
    (hhigh : isBelow block (scaledOfBits high) = true) :
    let found := lastBefore (fun k => isBelow block (scaledOfBits k)) 64 low high
    isBelow block (scaledOfBits found) = false ∧ isBelow block (scaledOfBits (found + 1)) = true :=
  lastBefore_spec (fun k => isBelow block (scaledOfBits k)) 64 hlt
    (Nat.le_trans hbits (Nat.le_add_left _ low)) hlow hhigh

/-- The radius of a block of nodes that all lie on common cycles. It is at least the smallest
positive entry and at most the greatest sum of a row; by `isBelow_lastBefore` the halvings are
enough to find it. -/
def ofBlock (block : List (List Float)) : Float :=
  match block with
  | [[x]] => x
  | _ =>
    let exact := block.map (·.map scaled)
    let positive := (block.flatten.filter (0.0 < ·)).map fun x => x.toBits.toNat
    let rowSums := block.map (·.foldl (· + ·) 0.0)
    let high := (rowSums.foldl (fun x y => if x < y then y else x) 0.0) * 2.0
    let low := positive.foldl min high.toBits.toNat
    let found := lastBefore (fun k => isBelow exact (scaledOfBits k)) 64 low high.toBits.toNat
    let (m, q) := scaledOfBits found
    let nearest := if isBelow exact (2 * m + 1, q - 1) then found else found + 1
    Float.ofBits nearest.toUInt64

variable {n : Nat}

/-- The nodes that lie on a common cycle with a node, itself included. -/
def cycleMates (reach : Square n Bool) (i : Fin n) : List (Fin n) :=
  (List.finRange n).filter fun j => reach.entry i j && reach.entry j i

/-- The spectral radius of a matrix without negative entries: the greatest one of its blocks. -/
def ofMatrix (m : Square n Float) : Float :=
  let reach := Reach.closure (.ofFn fun i j => decide (0.0 < m.entry i j))
  let firsts := (List.finRange n).filter fun i => (cycleMates reach i).head? == some i
  let radii := firsts.map fun i =>
    let nodes := cycleMates reach i
    ofBlock (nodes.map fun i => nodes.map (m.entry i))
  radii.foldl (fun x y => if x < y then y else x) 0.0

end StochasticGrammar.Radius
