import StochasticGrammar.Closure.Star
import StochasticGrammar.Grammar.Empty

/-!
# Refused grammars

The reasons for which a grammar, one of its rules or a parser for it cannot be made.
-/

namespace StochasticGrammar

/-- Why a grammar is refused. -/
inductive GrammarError (P : Type) where
  /-- A rule's probability is not above zero and at most one. -/
  | improperRule (e : ImproperRule P)
  /-- A rule mentions the synthetic start symbol. -/
  | startInRule
  /-- A rule expands a terminal object. -/
  | terminalExpanded (c : Category)
  /-- The chains of the named kind cannot be summed. -/
  | closure (what : String) (e : ClosureError Category P)
  /-- The probabilities of empty derivations cannot be had. -/
  | emptiness (e : Empty.MassError P)
  /-- A parser was to start from the synthetic start symbol itself. -/
  | startFromStart

/-- The wording of a closure's failure. -/
def ClosureError.message {α : Type} (literal : α → String) (what : String) :
    ClosureError α Float → String
  | unknown name => literal name
  | unbounded => "Array must not contain infs or NaNs"
  | divergent radius =>
    what ++ " closure diverges (spectral radius " ++ Numeric.fixed 6 radius
      ++ "); check grammar " ++ what ++ " cycles"

/-- The wording of a refusal. -/
def GrammarError.message : GrammarError Float → String
  | improperRule e => e.message
  | startInRule => "The synthetic start symbol cannot appear in grammar rules"
  | terminalExpanded c => "Terminal " ++ c.display ++ " cannot be a left-hand side"
  | closure what e => e.message Category.literal what
  | emptiness .unsettled => "Null probabilities did not converge; check grammar ε-cycles"
  | emptiness (.excessive x p) =>
    "Null probability of " ++ x.display ++ " is " ++ Numeric.fixed 6 p
      ++ " > 1; grammar is improper"
  | startFromStart => "Parse from a grammar category, not the synthetic start symbol"

end StochasticGrammar
