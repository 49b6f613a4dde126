import Mathlib.Algebra.BigOperators.Group.List.Basic
import StochasticGrammar.Grammar.Basic
import StochasticGrammar.Tree

/-!
# Derivations

A derivation is a tree with a rule at every inner node. Forgetting the rules leaves a tree as the
parser returns it; multiplying something up over the rules weighs it. The rules may be those that a
grammar was given, or those that the parser uses, of which none is empty.
-/

namespace StochasticGrammar

/-- A tree with rules at its inner nodes. -/
inductive Derivation (P W : Type) where
  | leaf (category : Category) (token : Payload)
  | node (rule : Rule P W) (children : List (Derivation P W))

namespace Derivation

variable {P W : Type}

/-- What holds of leaves and of nodes over children of which it holds, holds of all derivations. -/
@[elab_as_elim, induction_eliminator]
theorem induction {motive : Derivation P W → Prop} (leaf : ∀ c t, motive (leaf c t))
    (node : ∀ r ds, (∀ d ∈ ds, motive d) → motive (node r ds)) (d : Derivation P W) : motive d :=
  @Derivation.rec P W motive (fun ds => ∀ d ∈ ds, motive d) leaf node (fun d hd => (by cases hd))
    (fun d ds hd hds e he => by
      rcases List.mem_cons.mp he with rfl | he
      · exact hd
      · exact hds e he) d

mutual

/-- Evaluates a derivation from its leaves up. -/
def fold {α : Type} (leaf : Category → Payload → α) (node : Rule P W → List α → α) :
    Derivation P W → α
  | .leaf c t => leaf c t
  | .node r ds => node r (foldAll leaf node ds)

/-- Evaluates several derivations. -/
def foldAll {α : Type} (leaf : Category → Payload → α) (node : Rule P W → List α → α) :
    List (Derivation P W) → List α
  | [] => []
  | d :: ds => fold leaf node d :: foldAll leaf node ds

end

theorem foldAll_eq {α : Type} (leaf : Category → Payload → α) (node : Rule P W → List α → α)
    (ds : List (Derivation P W)) : foldAll leaf node ds = ds.map (fold leaf node) := by
  induction ds with
  | nil => rfl
  | cons d ds ih => rw [foldAll, ih, List.map_cons]

/-- The category at the root. -/
def root : Derivation P W → Category
  | leaf c _ => c
  | node r _ => r.lhs

/-- The tokens at the leaves, from left to right. -/
def tokens : Derivation P W → List Payload :=
  fold (fun _ t => [t]) fun _ ts => ts.flatten

/-- The tree without its rules. -/
def toTree : Derivation P W → Tree :=
  fold Tree.leaf fun r ts => .node r.lhs ts

/-- The product of a weight over all rules. -/
def weight {K : Type} [Monoid K] (f : Rule P W → K) : Derivation P W → K :=
  fold (fun _ _ => 1) fun r ws => f r * ws.prod

@[simp] theorem root_leaf (c : Category) (t : Payload) : (leaf c t : Derivation P W).root = c := rfl

@[simp] theorem root_node (r : Rule P W) (ds : List (Derivation P W)) : (node r ds).root = r.lhs :=
  rfl

@[simp] theorem tokens_leaf (c : Category) (t : Payload) :
    (leaf c t : Derivation P W).tokens = [t] := rfl

@[simp] theorem tokens_node (r : Rule P W) (ds : List (Derivation P W)) :
    (node r ds).tokens = ds.flatMap tokens := by
  unfold tokens
  rw [fold, foldAll_eq, List.flatMap_def]

@[simp] theorem toTree_leaf (c : Category) (t : Payload) :
    (leaf c t : Derivation P W).toTree = .leaf c t := rfl

@[simp] theorem toTree_node (r : Rule P W) (ds : List (Derivation P W)) :
    (node r ds).toTree = .node r.lhs (ds.map toTree) := by
  unfold toTree
  rw [fold, foldAll_eq]

theorem category_toTree (d : Derivation P W) : d.toTree.category = d.root := by
  cases d with
  | leaf c t => rfl
  | node r ds =>
    rw [toTree_node]
    rfl

section Weight

variable {K : Type} [Monoid K] (f : Rule P W → K)

@[simp] theorem weight_leaf (c : Category) (t : Payload) : (leaf c t).weight f = 1 := rfl

@[simp] theorem weight_node (r : Rule P W) (ds : List (Derivation P W)) :
    (node r ds).weight f = f r * (ds.map (weight f)).prod := by
  unfold weight
  rw [fold, foldAll_eq]

end Weight

theorem leavesAll_eq (ts : List Tree) : Tree.leavesAll ts = ts.flatMap Tree.leaves := by
  induction ts with
  | nil => rfl
  | cons t ts ih => rw [Tree.leavesAll, ih, List.flatMap_cons]

theorem tokens_tree_node (c : Category) (ts : List Tree) :
    (Tree.node c ts).tokens = ts.flatMap Tree.tokens := by
  rw [Tree.tokens, Tree.leaves, leavesAll_eq, List.map_flatMap]
  rfl

theorem tokens_toTree (d : Derivation P W) : d.toTree.tokens = d.tokens := by
  induction d with
  | leaf c t => rfl
  | node r ds ih =>
    rw [toTree_node, tokens_node, tokens_tree_node, List.flatMap_map]
    exact List.flatMap_congr ih

/-- A derivation by some of the rules, whose leaves are terminals that take their tokens. -/
inductive IsParse (G : Grammar P W) (rules : Rule P W → Prop) : Derivation P W → Prop
  | leaf {c : Category} {t : Payload} (hterm : G.isTerminal c = true)
      (haccepts : c.accepts t = .ok true) : IsParse G rules (.leaf c t)
  | node {r : Rule P W} {ds : List (Derivation P W)} (hr : rules r)
      (hroots : ds.map root = r.rhs) (hds : ∀ d ∈ ds, IsParse G rules d) :
      IsParse G rules (.node r ds)

/-- A derivation of some tokens from a category. -/
structure IsParseOf (G : Grammar P W) (rules : Rule P W → Prop) (goal : Category)
    (tokens : List Payload) (d : Derivation P W) : Prop where
  isParse : d.IsParse G rules
  root_eq : d.root = goal
  tokens_eq : d.tokens = tokens

/-- A derivation of nothing at all by some rules. Below a rule stand its symbols, each in any
spelling. -/
inductive Vanishes (rules : List (Rule P W)) : Derivation P W → Prop
  | node {r : Rule P W} {ds : List (Derivation P W)} (hr : r ∈ rules)
      (hroots : List.Forall₂ (fun d c => (d.root == c) = true) ds r.rhs)
      (hds : ∀ d ∈ ds, Vanishes rules d) : Vanishes rules (.node r ds)

/-- A derivation by the rules that the grammar was given. -/
def IsSourceParse (G : Grammar P W) (d : Derivation P W) : Prop :=
  d.IsParse G (· ∈ G.rules)

end Derivation
end StochasticGrammar
