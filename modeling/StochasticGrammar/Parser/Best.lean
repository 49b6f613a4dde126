import StochasticGrammar.Parser.Basic
import StochasticGrammar.Tree

/-!
# Best derivations as trees

The best derivation of a state is read back from right to left along its back pointers. Symbols that
a rule variant left out are put back as trees without leaves, and the synthetic start node is
dropped.
-/

namespace StochasticGrammar

/-- Why a tree cannot be built. -/
inductive TreeError (P W : Type) where
  /-- The state has no derivation. -/
  | noDerivation (s : State P W)
  /-- A state that a back pointer leads to has none itself. -/
  | brokenChain (s : State P W)
  /-- A back pointer names neither a token nor a complete state. -/
  | noPhrase (s : State P W)
  /-- A symbol was left out that cannot be empty. -/
  | notEmpty (c : Category)
  /-- A variant has found fewer symbols than its source rule asks for. -/
  | missingChild
  /-- The synthetic start node has no single child. -/
  | childCount (n : Nat)
  /-- Several complete start states span the input. -/
  | ambiguous (n : Nat)

/-- The wording of a failure. -/
def TreeError.message {P W : Type} : TreeError P W → String
  | noDerivation s => s.display ++ " has no derivation in this chart"
  | brokenChain s => "Broken backpointer chain at " ++ s.display
  | noPhrase s => "Back pointer without a phrase at " ++ s.display
  | notEmpty c => c.display ++ " was skipped as empty but derives no empty string"
  | missingChild => "Too few children for a rule with symbols left out"
  | childCount n => "The start node has " ++ toString n ++ " children instead of one"
  | ambiguous n =>
    "Expected one complete start state spanning the input, found " ++ toString n

namespace Parser

variable {P W : Type}

/-- The best empty derivation of a category. No category recurs on the way down, so the number of
categories bounds the depth. -/
def emptyTree (G : Grammar P W) : Nat → Category → Except (TreeError P W) Tree
  | 0, c => .error (.notEmpty c)
  | fuel + 1, c =>
    match G.bestEmptyRule? c with
    | none => .error (.notEmpty c)
    | some r => return .node c (← r.rhs.mapM (emptyTree G fuel))

/-- Puts the symbols that were left out back among the children that were found. -/
def restore (G : Grammar P W) (omitted : List Int) :
    List (Category × Nat) → List Tree → Except (TreeError P W) (List Tree)
  | [], _ => .ok []
  | (c, i) :: places, found =>
    if omitted.contains (i : Int) then
      return (← emptyTree G (G.index.length + 1) c) :: (← restore G omitted places found)
    else
      match found with
      | [] => .error .missingChild
      | t :: found => return t :: (← restore G omitted places found)

/-- The node of a state over the children that were found. -/
def nodeOf (G : Grammar P W) (s : State P W) (found : List Tree) : Except (TreeError P W) Tree :=
  match s.isComplete, s.rule.source? with
  | true, some source =>
    return .node s.rule.lhs (← restore G s.rule.omitted source.rhs.zipIdx found)
  | _, _ => .ok (.node s.rule.lhs found)

variable [DecidableEq P] [DecidableEq W]

/-- The children that a state has found, read from the last one back. Back pointers never lead to
the same state again, so the number of states bounds the way. -/
def children (G : Grammar P W) (chart : Chart P W) :
    Nat → State P W → Except (TreeError P W) (List Tree)
  | 0, s => .error (.brokenChain s)
  | fuel + 1, s =>
    if s.dot = 0 then .ok []
    else
      match chart.best? s with
      | some { previous := some before, token := some token, .. } => do
        let last := Tree.leaf ((s.rule.rhs[s.dot - 1]?).getD .start) token
        return (← children G chart fuel before) ++ [last]
      | some { previous := some before, completed := some done, .. } => do
        let last ← nodeOf G done (← children G chart fuel done)
        return (← children G chart fuel before) ++ [last]
      | some { previous := some _, .. } => .error (.noPhrase s)
      | _ => .error (.brokenChain s)

/-- The tree of a state's best derivation. -/
def bestTree (G : Grammar P W) (chart : Chart P W) (s : State P W) :
    Except (TreeError P W) Tree := do
  if (chart.best? s).isNone then throw (.noDerivation s)
  let tree ← nodeOf G s (← children G chart (chart.size + 2) s)
  if s.rule.lhs = .start ∧ s.isComplete then
    match tree with
    | .node _ [child] => return child
    | .node _ kids => throw (.childCount kids.length)
    | .leaf _ _ => throw (.childCount 0)
  else
    return tree

/-- The best parse that a chart holds up to a position, with its score; none if there is no parse.
-/
def bestParse (G : Grammar P W) (chart : Chart P W) (position : Nat) :
    Except (TreeError P W) (Option (Tree × W)) :=
  match finalStates chart position with
  | [] => .ok none
  | [final] => do
    let tree ← bestTree G chart final
    match chart.best? final with
    | some b => return some (tree, b.score)
    | none => throw (.noDerivation final)
  | finals => .error (.ambiguous finals.length)

end Parser
end StochasticGrammar
