import StochasticGrammar.Grammar.Error
import StochasticGrammar.Grammar.Omission

/-!
# Grammars

A grammar is compiled once from its rules. Repeated rules are merged, empty rules are compiled into
variants of the rules that use them, and the chains that a parser would otherwise have to follow
without end are summed: left-corner chains for prediction and unit chains for completion.
-/

namespace StochasticGrammar

/-- A compiled grammar. -/
structure Grammar (P W : Type) where
  /-- The algebra of its scores. -/
  algebra : ScoreAlgebra P W
  /-- The rules as they were given, repeated ones merged. -/
  rules : List (Rule P W)
  /-- The same rules by category. -/
  index : RuleIndex P W
  /-- The categories that can be empty. -/
  nullable : List Category
  /-- How probable each of them is to be empty. -/
  masses : Empty.Masses P
  /-- Their best empty derivations. -/
  choices : Empty.Choices P W
  /-- The rules that the parser uses, none of them empty, by category. -/
  productions : Table Category (List (Production P W))
  /-- Summed chains of leftmost symbols, as scores. -/
  leftCorners : Table Category (Table Category W)
  /-- Summed chains of unit rules, as scores. -/
  unitChains : Table Category (Table Category W)

namespace Grammar

variable {P W : Type}

/-! ## Chains -/

/-- Whether the category is one of the named ones and not a terminal object. -/
def expands (names : List Category) (c : Category) : Bool :=
  !c.isTerminalObject && names.contains c

/-- An edge from a category to the first symbol of each of its rules, if that is expanded too. -/
def leftEdges (names : List Category) (rules : List (Rule P W)) : List (Category × Category × P) :=
  rules.filterMap fun r =>
    match r.rhs with
    | y :: _ => if expands names y then some (r.lhs, y, r.probability) else none
    | [] => none

/-- An edge from a category to the only symbol of each of its unit rules. -/
def unitEdges (names : List Category) (rules : List (Rule P W)) : List (Category × Category × P) :=
  rules.filterMap fun r =>
    match r.rhs with
    | [y] => if expands names y then some (r.lhs, y, r.probability) else none
    | _ => none

/-- A closure with its entries as scores. -/
def encode (A : ScoreAlgebra P W) (closure : Table Category (Table Category P)) :
    Table Category (Table Category W) :=
  closure.map fun row => (row.1, row.2.map fun entry => (entry.1, A.ofProbability entry.2))

/-- The productions of each category that has rules. -/
def indexProductions (names : List Category) (productions : List (Production P W)) :
    Table Category (List (Production P W)) :=
  names.map fun x => (x, productions.filter fun q => q.rule.lhs == x)

/-! ## Questions about a grammar -/

section Questions

variable (G : Grammar P W)

/-- The categories that have rules, in order of first appearance. -/
def names : List Category :=
  G.index.keys

/-- Whether tokens are matched against the category. -/
def isTerminal (c : Category) : Bool :=
  c.isTerminalObject || (decide (c ≠ .start) && !G.names.contains c)

/-- Whether the parser expands the category. -/
def isNonterminal (c : Category) : Bool :=
  expands G.names c

/-- Whether the rule turns its category into a single other one that is expanded in turn. -/
def isUnit (r : Rule P W) : Bool :=
  match r.rhs with
  | [y] => G.isNonterminal y
  | _ => false

/-- The productions that the parser expands a category with. -/
def productionsOf (x : Category) : List (Production P W) :=
  (Table.get? G.productions x).getD []

/-- The rules of a category as they were given. -/
def sourceRulesOf (x : Category) : List (Rule P W) :=
  G.index.rulesOf x

/-- The categories at the left corner of a category, each with its summed score. -/
def leftCornersOf (x : Category) : Table Category W :=
  (Table.get? G.leftCorners x).getD []

/-- The summed score of the left-corner chains from one category to another. -/
def leftCornerScore (x y : Category) : W :=
  (Table.get? (G.leftCornersOf x) y).getD G.algebra.zero

/-- The summed score of the unit chains from one category to another. -/
def unitScore (x y : Category) : W :=
  (Table.get? ((Table.get? G.unitChains x).getD []) y).getD G.algebra.zero

/-- The categories from which unit chains lead to a category, each with its summed score. -/
def unitSources (y : Category) : List (Category × W) :=
  G.unitChains.filterMap fun row => (Table.get? row.2 y).map fun w => (row.1, w)

/-- Whether the category can be empty. -/
def isNullable (x : Category) : Bool :=
  G.nullable.contains x

/-- The first rule of the best empty derivation of the category. -/
def bestEmptyRule? (x : Category) : Option (Rule P W) :=
  (Table.get? G.choices x).map (·.2)

/-- The description of a grammar. -/
def display : String :=
  "Grammar(" ++ toString G.rules.length ++ " rules, " ++ G.algebra.display ++ ")"

variable [Probability P]

/-- The probability that the category is empty. -/
def emptyProbability (x : Category) : P :=
  Empty.massAt G.masses x

/-- The probability of the best empty derivation of the category. -/
def bestEmptyProbability (x : Category) : P :=
  Empty.bestAt G.choices x

end Questions

/-! ## Merging repeated rules -/

/-- Puts a rule into the group of rules that say the same, or into one of its own at the end. -/
def addToGroups : List (List (Rule P W)) → Rule P W → List (List (Rule P W))
  | [], r => [[r]]
  | g :: gs, r =>
    if g.head?.any (·.head == r.head) then (g ++ [r]) :: gs else g :: addToGroups gs r

variable [Probability P]

/-- One rule for a group: its only member, or a rule with the sum of the probabilities. -/
def mergeGroup (A : ScoreAlgebra P W) (group : List (Rule P W)) :
    Except (ImproperRule P) (List (Rule P W)) :=
  match group with
  | [] => .ok []
  | [r] => .ok [r]
  | r :: rs => do
    let p := Probability.total ((r :: rs).map Rule.probability)
    return [← Rule.create A r.head p]

/-- The rules with repeated ones merged, in order of first appearance. -/
def merge (A : ScoreAlgebra P W) (rules : List (Rule P W)) :
    Except (ImproperRule P) (List (Rule P W)) := do
  return (← (rules.foldl addToGroups []).mapM (mergeGroup A)).flatten

/-! ## Compilation -/

/-- Compiles a grammar from its rules. -/
def ofRules [DecidableEq P] [DecidableEq W] (solver : Solver P) (A : ScoreAlgebra P W)
    (given : List (Rule P W)) : Except (GrammarError P) (Grammar P W) := do
  let rules ← (merge A given).mapError .improperRule
  let index := RuleIndex.ofRules rules
  let names := index.keys
  let nullable := Empty.nullable index
  let masses ← (Empty.masses index nullable).mapError .emptiness
  let choices := Empty.choices index
  let flat ← (Omission.eliminate A nullable (Empty.massAt masses) (Empty.bestAt choices)
    rules).mapError .improperRule
  let productions := indexProductions names flat
  let compiled := productions.flatMap fun entry => entry.2.map (·.rule)
  let left ← (Star.closure solver names (leftEdges names compiled)).mapError
    (.closure "left-corner")
  let unit ← (Star.closure solver names (unitEdges names compiled)).mapError (.closure "unit")
  return { algebra := A, rules, index, nullable, masses, choices, productions,
           leftCorners := encode A left, unitChains := encode A unit }

end Grammar
end StochasticGrammar
