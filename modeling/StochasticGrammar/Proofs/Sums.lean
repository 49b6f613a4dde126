import Mathlib.Algebra.BigOperators.Fin

/-!
# Sums over lists

A parser keeps its edges, moves and cells in lists, and sums over them by filters and nested loops.
These lemmas turn such sums into sums over the members that count.
-/

namespace StochasticGrammar

variable {α β M : Type}

theorem sum_map_filter [AddMonoid M] (p : α → Prop) [DecidablePred p] (f : α → M) (l : List α) :
    ((l.filter fun a => decide (p a)).map f).sum = (l.map fun a => if p a then f a else 0).sum := by
  induction l with
  | nil => rfl
  | cons a l ih =>
    rw [List.filter_cons, List.map_cons, List.sum_cons, ← ih]
    by_cases ha : p a <;> simp [ha]

theorem sum_map_flatMap [AddMonoid M] (l : List α) (g : α → List β) (f : β → M) :
    ((l.flatMap g).map f).sum = (l.map fun a => ((g a).map f).sum).sum := by
  induction l with
  | nil => rfl
  | cons a l ih => simp [List.flatMap_cons, ih]

theorem sum_map_filterMap [AddMonoid M] (l : List α) (g : α → Option β) (f : β → M) :
    ((l.filterMap g).map f).sum = (l.map fun a => (g a).elim 0 f).sum := by
  induction l with
  | nil => rfl
  | cons a l ih => cases h : g a <;> simp [h, ih]

theorem sum_sum_map [AddCommMonoid M] (t : Finset α) (l : List β) (f : α → β → M) :
    ∑ a ∈ t, (l.map (f a)).sum = (l.map fun b => ∑ a ∈ t, f a b).sum := by
  induction l with
  | nil => simp
  | cons b l ih => simp [Finset.sum_add_distrib, ih]

/-- A sum over the places that pass a test. -/
theorem sum_places [AddCommMonoid M] {n : Nat} (p : Fin n → Bool) (f : Fin n → M) :
    (((List.finRange n).filter p).map f).sum = ∑ i, if p i = true then f i else 0 := by
  rw [← List.sum_toFinset _ ((List.nodup_finRange n).filter _), ← Finset.sum_filter]
  refine Finset.sum_congr ?_ fun _ _ => rfl
  ext i
  simp

end StochasticGrammar
