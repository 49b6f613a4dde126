import StochasticGrammar.Rule
import StochasticGrammar.Settle
import StochasticGrammar.Table

/-!
# Empty derivations

Which categories can derive nothing at all, with which total probability, and by which single best
derivation. All three are fixed points over the rules grouped by the category that they expand.
-/

namespace StochasticGrammar

/-- Rules by the category that they expand, categories in order of first appearance. -/
abbrev RuleIndex (P W : Type) := Table Category (List (Rule P W))

namespace RuleIndex

variable {P W : Type}

/-- Groups rules by the category that they expand. -/
def ofRules (rules : List (Rule P W)) : RuleIndex P W :=
  rules.foldl
    (fun index r => Table.insert index r.lhs (((Table.get? index r.lhs).getD []) ++ [r])) []

/-- The rules of a category. -/
def rulesOf (index : RuleIndex P W) (x : Category) : List (Rule P W) :=
  (Table.get? index x).getD []

end RuleIndex

namespace Empty

variable {P W : Type}

/-- Whether the rule's right-hand side consists of known categories only. -/
def isCovered (known : List Category) (r : Rule P W) : Bool :=
  r.rhs.all known.contains

/-- Adds, in order, every category that has a rule over known categories only. -/
def nullableRound (index : RuleIndex P W) (known : List Category) : List Category :=
  index.foldl
    (fun known entry =>
      if known.contains entry.1 then known
      else if entry.2.any (isCovered known) then known ++ [entry.1]
      else known)
    known

/-- The categories that can derive nothing. Every round but the last adds one. -/
def nullable (index : RuleIndex P W) : List Category :=
  settle (nullableRound index) index.length []

/-- The probabilities of deriving nothing, by category. -/
abbrev Masses (P : Type) := Table Category P

variable [Probability P]

/-- The mass of a category, zero if it has none. -/
def massAt (e : Masses P) (x : Category) : P :=
  (Table.get? e x).getD 0

/-- Evaluates every mass anew from the masses before: the sum over the rules that can vanish of
their probability times the masses of their symbols. -/
def massRound (index : RuleIndex P W) (nullable : List Category) (e : Masses P) : Masses P :=
  e.map fun entry =>
    (entry.1,
      Probability.sum (((index.rulesOf entry.1).filter (isCovered nullable)).map fun r =>
        r.probability * Probability.prod (r.rhs.map (massAt e))))

/-- The greatest change of a mass. -/
def change (before after : Masses P) : P :=
  Probability.greatest (List.zipWith (fun a b => Probability.dist b.2 a.2) before after)

/-- Repeats rounds until no mass moves by more than `10^-12`; none if the rounds run out. -/
def settleMasses (round : Masses P → Masses P) : Nat → Masses P → Option (Masses P)
  | 0, _ => none
  | n + 1, e =>
    let e' := round e
    if change e e' ≤ 1e-12 then some e' else settleMasses round n e'

/-- How many rounds the masses may take. -/
def maxRounds : Nat := 10000

/-- All masses before the first round. -/
def zeroMasses (index : RuleIndex P W) (nullable : List Category) : Masses P :=
  (index.keys.filter nullable.contains).map fun x => (x, 0)

/-- Why the masses are refused. -/
inductive MassError (P : Type) where
  /-- They did not settle. -/
  | unsettled
  /-- A category derives nothing with a probability above one. -/
  | excessive (category : Category) (mass : P)

/-- The probability of deriving nothing for every category that can. -/
def masses (index : RuleIndex P W) (nullable : List Category) : Except (MassError P) (Masses P) :=
  match settleMasses (massRound index nullable) maxRounds (zeroMasses index nullable) with
  | none => .error .unsettled
  | some e =>
    match e.find? fun entry => decide (1 + 1e-9 < entry.2) with
    | some (x, p) => .error (.excessive x p)
    | none => .ok e

/-- The best single way for each category to derive nothing: its probability and its first rule. -/
abbrev Choices (P W : Type) := Table Category (P × Rule P W)

/-- The probability of the chosen way of a category, zero if it has none. -/
def bestAt (best : Choices P W) (x : Category) : P :=
  ((Table.get? best x).map (·.1)).getD 0

/-- Takes a rule over if it vanishes through chosen categories with a strictly greater probability
than the rule chosen before. -/
def relax (x : Category) (best : Choices P W) (r : Rule P W) : Choices P W :=
  match r.rhs.mapM fun s => (Table.get? best s).map (·.1) with
  | none => best
  | some ps =>
    let p := r.probability * Probability.prod ps
    match Table.get? best x with
    | none => Table.insert best x (p, r)
    | some (q, _) => if q < p then Table.insert best x (p, r) else best

/-- Tries every rule once, in order, each against the choices so far. -/
def choiceRound (index : RuleIndex P W) (best : Choices P W) : Choices P W :=
  index.foldl (fun best entry => entry.2.foldl (relax entry.1) best) best

/-- The best choices. A best empty derivation repeats no category on its way down, so one round more
than there are categories settles them. -/
def choices [DecidableEq P] [DecidableEq W] (index : RuleIndex P W) : Choices P W :=
  settle (choiceRound index) (index.length + 1) []

end Empty
end StochasticGrammar
