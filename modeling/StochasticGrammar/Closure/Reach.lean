import StochasticGrammar.Settle

/-!
# Graphs and reachability

The edges of a finite graph, or their weights, are a square matrix. Matrices are stored as a vector
of rows, so that every entry is computed once.

Which node can be reached from which is found in rounds: the relation starts with every node
reaching itself and its successors, and is extended by one edge at a time until a round changes
nothing.
-/

namespace StochasticGrammar

/-- A matrix of `n` rows of `n` entries. -/
abbrev Square (n : Nat) (α : Type) := Vector (Vector α n) n

namespace Square

variable {n : Nat} {α β : Type}

/-- The matrix whose entries a function gives. -/
def ofFn (f : Fin n → Fin n → α) : Square n α :=
  Vector.ofFn fun i => Vector.ofFn (f i)

/-- The entry at a row and a column. -/
def entry (m : Square n α) (i j : Fin n) : α :=
  m[i][j]

@[simp] theorem entry_ofFn (f : Fin n → Fin n → α) (i j : Fin n) : entry (ofFn f) i j = f i j := by
  simp [entry, ofFn]

/-- Two matrices with equal entries are equal. -/
theorem ext_entry {a b : Square n α} (h : ∀ i j, a.entry i j = b.entry i j) : a = b := by
  refine Vector.ext fun i hi => Vector.ext fun j hj => ?_
  exact h ⟨i, hi⟩ ⟨j, hj⟩

/-- All entries, row by row. -/
def toList (m : Square n α) : List α :=
  (List.finRange n).flatMap fun i => (List.finRange n).map (m.entry i)

end Square

namespace Reach

variable {n : Nat}

/-- What can be reached in no step or in one. -/
def initial (adjacent : Square n Bool) : Square n Bool :=
  .ofFn fun i j => decide (i = j) || adjacent.entry i j

/-- What was reached already, and what one more edge reaches from there. -/
def extend (adjacent reach : Square n Bool) : Square n Bool :=
  .ofFn fun i j =>
    reach.entry i j || (List.finRange n).any fun k => reach.entry i k && adjacent.entry k j

/-- Every pair that is joined by a path of any length. The rounds stop at the first one that changes
nothing. A path that visits no node twice has fewer than `n` edges, so this happens within `n`
rounds. -/
def closure (adjacent : Square n Bool) : Square n Bool :=
  settle (extend adjacent) n (initial adjacent)

end Reach
end StochasticGrammar
