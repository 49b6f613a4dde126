import StochasticGrammar.Chart.Basic
import StochasticGrammar.Grammar.Basic

/-!
# Scanning

A token is matched against every terminal that some state of the current column waits for. Each
state whose terminal takes the token moves into the next column with all its scores.
-/

namespace StochasticGrammar.Parser

variable {P W : Type} [DecidableEq P] [DecidableEq W]

/-- Moves a cell over a token into the column at a position. -/
def shift (A : ScoreAlgebra P W) (position : Nat) (token : Payload) (cell : Cell P W)
    (col : Column P W) : Column P W :=
  col.alter A (cell.state.advance position) fun c =>
    let c := (c.addForward A cell.forward).addInner A cell.inner
    match cell.best with
    | none => c
    | some b => c.offer A ⟨.scanned, b.score, some cell.state, none, some token⟩

/-- Moves every cell that takes the token, in order, and lists the states that came out. A faulty
pattern ends the scan; what was moved before it stays in the column. -/
def scan (G : Grammar P W) (position : Nat) (token : Payload) :
    Column P W → Column P W → Column P W × Except Pattern.Error (List (State P W))
  | [], col => (col, .ok [])
  | cell :: rest, col =>
    match cell.state.next? with
    | none => scan G position token rest col
    | some c =>
      if G.isTerminal c then
        match c.accepts token with
        | .error e => (col, .error e)
        | .ok false => scan G position token rest col
        | .ok true =>
          let (col, found) := scan G position token rest (shift G.algebra position token cell col)
          (col, found.map (cell.state.advance position :: ·))
      else scan G position token rest col

end StochasticGrammar.Parser
