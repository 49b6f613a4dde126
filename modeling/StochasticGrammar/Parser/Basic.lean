import StochasticGrammar.Parser.Complete
import StochasticGrammar.Parser.Predict
import StochasticGrammar.Parser.Scan

/-!
# Parsers

A parser takes tokens one at a time. After each one its chart holds, for every state, its forward
and inner scores and its best derivation, from which the probabilities of the input as a prefix and
as a sentence are read.
-/

namespace StochasticGrammar

/-- A parser in the midst of its input. -/
structure Parser (P W : Type) where
  grammar : Grammar P W
  /-- The category to be parsed. -/
  goal : Category
  chart : Chart P W
  /-- How many tokens have been taken. -/
  position : Nat
  /-- The score of the tokens so far as a prefix of a sentence. -/
  prefixScore : W

namespace Parser

variable {P W : Type} [DecidableEq P] [DecidableEq W] [Probability P]

/-- The rule that expands the synthetic start symbol into the category to be parsed. -/
def startRule (A : ScoreAlgebra P W) (goal : Category) : Rule P W :=
  .given ⟨⟨.plain, .start, [goal]⟩, 1, A.one, [], 0⟩

/-- The start rule with its only symbol left out, for the empty sentence. -/
def emptyStart (G : Grammar P W) (goal : Category) :
    Except (ImproperRule P) (Production P W) := do
  let A := G.algebra
  let p := G.emptyProbability goal
  let rule ← Rule.make ⟨⟨.plain, .start, []⟩, p, A.ofProbability p, [0], 0⟩ (startRule A goal)
  return ⟨rule, A.ofProbability (G.bestEmptyProbability goal)⟩

/-- Puts a production into the first column. -/
def seed (A : ScoreAlgebra P W) (q : Production P W) (column : Column P W) : Column P W :=
  column.alter A (.predicted q.rule 0) fun c =>
    ((c.addForward A q.rule.weight).addInner A q.rule.weight).offer A
      ⟨.seed, q.best, none, none, none⟩

/-- The first column before prediction. -/
def seeds (G : Grammar P W) (goal : Category) : Except (ImproperRule P) (Column P W) := do
  let column := seed G.algebra (.ofRule (startRule G.algebra goal)) []
  if G.isNullable goal then
    return seed G.algebra (← emptyStart G goal) column
  else
    return column

/-- A parser before its first token. -/
def create (G : Grammar P W) (goal : Category) : Except (GrammarError P) (Parser P W) := do
  if goal = .start then throw .startFromStart
  let column ← (seeds G goal).mapError .improperRule
  return ⟨G, goal, ⟨[predict G 0 column]⟩, 0, G.algebra.one⟩

/-- The parser that starts over. -/
def reset (p : Parser P W) : Except (GrammarError P) (Parser P W) :=
  create p.grammar p.goal

/-- Takes a token. The answer is whether some state could scan it; if none could, the parser stays
where it was, with one more empty column. A faulty pattern leaves behind what was scanned before it
was met. -/
def step (p : Parser P W) (token : Payload) : Parser P W × Except Pattern.Error Bool :=
  let G := p.grammar
  let k := p.position + 1
  let chart := p.chart.ensure k
  match scan G k token (chart.column p.position) (chart.column k) with
  | (column, .error e) => ({ p with chart := chart.setColumn k column }, .error e)
  | (_, .ok []) => ({ p with chart }, .ok false)
  | (column, .ok (s :: scanned)) =>
    let prefixScore := G.algebra.sum ((s :: scanned).map (column.forward G.algebra))
    let column := predict G k (complete G (chart.columns.take k) k column)
    ({ p with chart := chart.setColumn k column, position := k, prefixScore }, .ok true)

/-- The complete states of the start symbol over a chart up to a position. -/
def finalStates (chart : Chart P W) (position : Nat) : List (State P W) :=
  (chart.completed position .start).filter fun s => s.origin == 0

/-- Whether the tokens so far are a sentence. -/
def isAccepted (p : Parser P W) : Bool :=
  !(finalStates p.chart p.position).isEmpty

/-- The probability that the tokens so far begin a sentence; none if it is too large a number. -/
def prefixProbability? (p : Parser P W) : Option P :=
  p.grammar.algebra.toProbability p.prefixScore

/-- The probability that the tokens so far are a sentence; none if it is too large a number. -/
def sentenceProbability? (p : Parser P W) : Option P :=
  let A := p.grammar.algebra
  A.toProbability (A.sum ((finalStates p.chart p.position).map (p.chart.inner A)))

/-- Adds a category to a list that has none that is the same. -/
def addNew (known : List Category) (c : Category) : List Category :=
  if known.contains c then known else known ++ [c]

/-- The terminals that the next token may belong to, each once. -/
def allowedTerminals (p : Parser P W) : List Category :=
  (((p.chart.column p.position).filterMap (·.state.next?)).filter p.grammar.isTerminal).foldl
    addNew []

/-- Takes tokens until one cannot be scanned. -/
def run (p : Parser P W) : List Payload → Except Pattern.Error (Parser P W)
  | [] => .ok p
  | token :: rest =>
    match p.step token with
    | (_, .error e) => .error e
    | (p, .ok false) => .ok p
    | (p, .ok true) => run p rest

end Parser

/-- Why a list of tokens cannot be parsed. -/
inductive ParseError (P : Type) where
  | grammar (e : GrammarError P)
  | pattern (e : Pattern.Error)

/-- The chart of a list of tokens, with one position more than there are tokens. Positions after the
first token that cannot be scanned are empty. -/
def parse {P W : Type} [DecidableEq P] [DecidableEq W] [Probability P] (G : Grammar P W)
    (goal : Category) (tokens : List Payload) : Except (ParseError P) (Chart P W) := do
  let p ← (Parser.create G goal).mapError .grammar
  let p ← (p.run tokens).mapError .pattern
  return p.chart.ensure tokens.length

end StochasticGrammar
