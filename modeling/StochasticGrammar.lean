import StochasticGrammar.Category
import StochasticGrammar.Chart.Basic
import StochasticGrammar.Chart.Column
import StochasticGrammar.Chart.Indexed
import StochasticGrammar.Chart.State
import StochasticGrammar.Closure.Radius
import StochasticGrammar.Closure.Reach
import StochasticGrammar.Closure.Solver
import StochasticGrammar.Closure.Star
import StochasticGrammar.Grammar.Basic
import StochasticGrammar.Grammar.Builder
import StochasticGrammar.Grammar.Empty
import StochasticGrammar.Grammar.Error
import StochasticGrammar.Grammar.Omission
import StochasticGrammar.Numeric.Binary64
import StochasticGrammar.Numeric.Decimal
import StochasticGrammar.Numeric.Layout
import StochasticGrammar.Numeric.Nearest
import StochasticGrammar.Parser.Basic
import StochasticGrammar.Parser.Best
import StochasticGrammar.Parser.Complete
import StochasticGrammar.Parser.Predict
import StochasticGrammar.Parser.Scan
import StochasticGrammar.Pattern.Basic
import StochasticGrammar.Pattern.Escape
import StochasticGrammar.Pattern.Lexeme
import StochasticGrammar.Pattern.Match
import StochasticGrammar.Pattern.Reader
import StochasticGrammar.Pattern.Width
import StochasticGrammar.Payload
import StochasticGrammar.Proofs.Acyclic
import StochasticGrammar.Proofs.Amounts
import StochasticGrammar.Proofs.Arithmetic
import StochasticGrammar.Proofs.BestBelowInner
import StochasticGrammar.Proofs.Bounded
import StochasticGrammar.Proofs.CallHistory
import StochasticGrammar.Proofs.ChainOrder
import StochasticGrammar.Proofs.Chains
import StochasticGrammar.Proofs.ChartInvariant
import StochasticGrammar.Proofs.Choices
import StochasticGrammar.Proofs.ClosureSeries
import StochasticGrammar.Proofs.Collected
import StochasticGrammar.Proofs.Columns
import StochasticGrammar.Proofs.Compiled
import StochasticGrammar.Proofs.Completion
import StochasticGrammar.Proofs.Conservation
import StochasticGrammar.Proofs.Consistency
import StochasticGrammar.Proofs.CornerRefusal
import StochasticGrammar.Proofs.CornerWeights
import StochasticGrammar.Proofs.Corners
import StochasticGrammar.Proofs.Derivation
import StochasticGrammar.Proofs.Emptiness
import StochasticGrammar.Proofs.EmptyBounds
import StochasticGrammar.Proofs.EmptyChoices
import StochasticGrammar.Proofs.EmptyOrder
import StochasticGrammar.Proofs.EmptyRounds
import StochasticGrammar.Proofs.Exact
import StochasticGrammar.Proofs.ExactLogarithms
import StochasticGrammar.Proofs.ExactSolver
import StochasticGrammar.Proofs.Faithful
import StochasticGrammar.Proofs.Faults
import StochasticGrammar.Proofs.Finality
import StochasticGrammar.Proofs.Flow
import StochasticGrammar.Proofs.Forward
import StochasticGrammar.Proofs.Improvement
import StochasticGrammar.Proofs.IndexedCharts
import StochasticGrammar.Proofs.InnerMass
import StochasticGrammar.Proofs.Items
import StochasticGrammar.Proofs.Links
import StochasticGrammar.Proofs.Lockstep
import StochasticGrammar.Proofs.Logarithms
import StochasticGrammar.Proofs.Masses
import StochasticGrammar.Proofs.Merging
import StochasticGrammar.Proofs.Optimal
import StochasticGrammar.Proofs.OrderFree
import StochasticGrammar.Proofs.Outcome
import StochasticGrammar.Proofs.PlainSteps
import StochasticGrammar.Proofs.Prediction
import StochasticGrammar.Proofs.Prefixes
import StochasticGrammar.Proofs.Reach
import StochasticGrammar.Proofs.Reachable
import StochasticGrammar.Proofs.Reading
import StochasticGrammar.Proofs.Recognition
import StochasticGrammar.Proofs.Refusal
import StochasticGrammar.Proofs.Relaxation
import StochasticGrammar.Proofs.Reordered
import StochasticGrammar.Proofs.Repetition
import StochasticGrammar.Proofs.Restoration
import StochasticGrammar.Proofs.RuleOrder
import StochasticGrammar.Proofs.Run
import StochasticGrammar.Proofs.Safety
import StochasticGrammar.Proofs.Saturation
import StochasticGrammar.Proofs.Scanning
import StochasticGrammar.Proofs.Scores
import StochasticGrammar.Proofs.Sentences
import StochasticGrammar.Proofs.Series
import StochasticGrammar.Proofs.Shape
import StochasticGrammar.Proofs.SpanWeights
import StochasticGrammar.Proofs.Stages
import StochasticGrammar.Proofs.Star
import StochasticGrammar.Proofs.Steps
import StochasticGrammar.Proofs.Sums
import StochasticGrammar.Proofs.TranslatedGrammar
import StochasticGrammar.Proofs.TranslatedParser
import StochasticGrammar.Proofs.Translation
import StochasticGrammar.Proofs.Twins
import StochasticGrammar.Proofs.UnitSums
import StochasticGrammar.Rule
import StochasticGrammar.Score.Linear
import StochasticGrammar.Score.Log
import StochasticGrammar.Score.Probability
import StochasticGrammar.Settle
import StochasticGrammar.Table
import StochasticGrammar.Text.CaseFold
import StochasticGrammar.Text.Classes
import StochasticGrammar.Text.Lowercase
import StochasticGrammar.Text.Printable
import StochasticGrammar.Text.Quoted
import StochasticGrammar.Text.Ranges
import StochasticGrammar.Text.Uppercase
import StochasticGrammar.Tree
