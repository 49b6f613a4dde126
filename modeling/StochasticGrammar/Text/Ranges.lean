/-!
# Tables of characters

A class of characters is a list of closed ranges of code points. A case mapping is a list of runs:
every `stride`-th code point of a range is moved by one fixed offset.
-/

namespace StochasticGrammar.Text

/-- Whether the character lies in one of the closed ranges. -/
def inRanges (table : List (Nat × Nat)) (c : Char) : Bool :=
  table.any fun (lo, hi) => decide (lo ≤ c.toNat) && decide (c.toNat ≤ hi)

/-- Every `stride`-th code point from `first` to `last` is moved by `offset`. -/
structure CaseRun where
  first : Nat
  last : Nat
  stride : Nat
  offset : Int

/-- Whether the run moves the code point. -/
def CaseRun.covers (r : CaseRun) (code : Nat) : Bool :=
  decide (r.first ≤ code) && decide (code ≤ r.last) && decide ((code - r.first) % r.stride = 0)

/-- Whether the run moves a code point between two. The first candidate is the least code point of
the run that is not below the range. -/
def CaseRun.meets (r : CaseRun) (lo hi : Nat) : Bool :=
  let steps := (lo - r.first + r.stride - 1) / r.stride
  decide (r.first + steps * r.stride ≤ min r.last hi)

/-- The image of a code point under the first run that moves it, else the code point itself. -/
def shiftCase (table : List CaseRun) (code : Nat) : Nat :=
  match table.find? (·.covers code) with
  | some r => ((code : Int) + r.offset).toNat
  | none => code

end StochasticGrammar.Text
