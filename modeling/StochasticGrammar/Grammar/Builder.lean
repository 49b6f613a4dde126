import StochasticGrammar.Grammar.Basic

/-!
# Collecting rules

A builder takes rules one by one, checks each as it comes, and adds up the probabilities of repeated
ones. Building may first rescale the probabilities of each category to a sum of one.
-/

namespace StochasticGrammar

/-- A rule as collected, before its probability is encoded. -/
structure RuleEntry (P : Type) where
  head : RuleHead
  probability : P

/-- Rules collected so far. -/
structure Builder (P W : Type) where
  algebra : ScoreAlgebra P W
  /-- Whether probabilities are rescaled before a grammar is built. -/
  normalize : Bool
  entries : List (RuleEntry P)

namespace Builder

variable {P W : Type}

/-- A builder without rules. -/
def empty (A : ScoreAlgebra P W) (normalize : Bool) : Builder P W :=
  ⟨A, normalize, []⟩

variable [Probability P]

/-- Adds an entry to the one that says the same, which keeps its place and spelling, or puts it at
the end. -/
def addEntry : List (RuleEntry P) → RuleEntry P → List (RuleEntry P)
  | [], e => [e]
  | x :: xs, e =>
    if x.head == e.head then { x with probability := x.probability + e.probability } :: xs
    else x :: addEntry xs e

/-- Takes a rule. Its probability is checked first, then its symbols. -/
def add (b : Builder P W) (head : RuleHead) (p : P) : Except (GrammarError P) (Builder P W) :=
  if ¬ Probability.IsProper p then .error (.improperRule ⟨head, p⟩)
  else if head.lhs = .start ∨ head.rhs.contains .start then .error .startInRule
  else if head.lhs.isTerminalObject then .error (.terminalExpanded head.lhs)
  else .ok { b with entries := addEntry b.entries ⟨head, p⟩ }

/-- Takes plain rules one by one. The first refused one ends it, and those before it stay. -/
def addAll (b : Builder P W) :
    List (Category × List Category × P) → Builder P W × Except (GrammarError P) Unit
  | [] => (b, .ok ())
  | (lhs, rhs, p) :: rest =>
    match b.add ⟨.plain, lhs, rhs⟩ p with
    | .ok b' => b'.addAll rest
    | .error e => (b, .error e)

/-- The sum of the probabilities of a category's entries. -/
def totalOf (entries : List (RuleEntry P)) (lhs : Category) : P :=
  Probability.sum ((entries.filter fun e => e.head.lhs == lhs).map (·.probability))

/-- The entries with the probabilities of each category rescaled to a sum of one. -/
def normalized (entries : List (RuleEntry P)) : List (RuleEntry P) :=
  entries.map fun e => { e with probability := e.probability / totalOf entries e.head.lhs }

/-- Builds a grammar from the rules collected so far. -/
def build [DecidableEq P] [DecidableEq W] (solver : Solver P) (b : Builder P W) :
    Except (GrammarError P) (Grammar P W) := do
  let entries := if b.normalize then normalized b.entries else b.entries
  let rules ← entries.mapM fun e =>
    (Rule.create b.algebra e.head e.probability).mapError .improperRule
  Grammar.ofRules solver b.algebra rules

end Builder
end StochasticGrammar
