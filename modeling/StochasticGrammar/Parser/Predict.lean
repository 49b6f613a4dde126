import StochasticGrammar.Chart.Basic
import StochasticGrammar.Grammar.Basic

/-!
# Prediction

The states that stand before a category call for the rules of every category at its left corner. The
summed left-corner chains already cover what predicted states would predict, so those are not
predicted from again.
-/

namespace StochasticGrammar.Parser

variable {P W : Type} [DecidableEq P] [DecidableEq W]

/-- Adds a production at a position. Its forward score grows with every call; its inner score and
its best derivation are set once. -/
def predictProduction (A : ScoreAlgebra P W) (position : Nat) (forward chain : W)
    (column : Column P W) (q : Production P W) : Column P W :=
  let s := State.predicted q.rule position
  let isNew := !column.contains s
  column.alter A s fun c =>
    let c := c.addForward A (A.times [forward, chain, q.rule.weight])
    if isNew then
      (c.addInner A q.rule.weight).offer A ⟨.predicted, q.best, none, none, none⟩
    else c

/-- Adds the productions that a state calls for. -/
def predictFrom (G : Grammar P W) (position : Nat) (column : Column P W) (s : State P W) :
    Column P W :=
  if s.dot = 0 ∧ s.rule.lhs ≠ .start then column
  else
    match s.next? with
    | none => column
    | some z =>
      if G.isNonterminal z then
        let forward := column.forward G.algebra s
        (G.leftCornersOf z).foldl
          (fun column corner =>
            (G.productionsOf corner.1).foldl
              (predictProduction G.algebra position forward corner.2) column)
          column
      else column

/-- Predicts from every state that the column holds. -/
def predict (G : Grammar P W) (position : Nat) (column : Column P W) : Column P W :=
  column.states.foldl (predictFrom G position) column

end StochasticGrammar.Parser
