import Mathlib.Data.Set.Card
import Mathlib.Logic.Relation
import StochasticGrammar.Closure.Reach

/-!
# Reachability is exact

The closure extends the relation by one edge at a time and stops at the first round that changes
nothing. It misses nothing: a round reaches what paths with one edge more than there were rounds
reach, and once a round reaches nothing new, no later one does. A path that is longer than there are
nodes has no new end, so the rounds do come to an end.

> `entry_rounds`: what so many rounds reach.

> `entry_closure`: an entry of the closure holds if and only if a path of any length leads from its
> row to its column.

> `early_stop_misses_no_path`: the closure is what the first round that changes nothing has reached.
-/

namespace StochasticGrammar

open Relation (ReflTransGen)

/-- Settling is plain repetition: a value that has settled does not change any more. -/
theorem settle_eq_iterate {α : Type} [DecidableEq α] (step : α → α) (n : Nat) (x : α) :
    settle step n x = step^[n] x := by
  induction n generalizing x with
  | zero => rfl
  | succ n ih =>
    rw [settle, Function.iterate_succ_apply]
    by_cases h : step x = x
    · rw [if_pos h, h]
      exact (Function.iterate_fixed h n).symm
    · rw [if_neg h, ih]

/-- Settling stops at the first round that changes nothing, or when the rounds run out. -/
theorem exists_settle_eq_iterate {α : Type} [DecidableEq α] (step : α → α) (n : Nat) (x : α) :
    ∃ r ≤ n, settle step n x = step^[r] x ∧ (r < n → step^[r + 1] x = step^[r] x) ∧
      ∀ s < r, step^[s + 1] x ≠ step^[s] x := by
  induction n generalizing x with
  | zero =>
    refine ⟨0, Nat.le_refl 0, rfl, fun h => ?_, fun s hs => ?_⟩
    · omega
    · omega
  | succ n ih =>
    by_cases h : step x = x
    · refine ⟨0, Nat.zero_le _, settle_of_fixed step (n + 1) h, fun _ => h, fun s hs => ?_⟩
      omega
    · obtain ⟨r, hr, hsettle, hfixed, hfirst⟩ := ih (step x)
      refine ⟨r + 1, Nat.succ_le_succ hr, ?_, fun hlt => hfixed (Nat.lt_of_succ_lt_succ hlt), ?_⟩
      · rw [settle, if_neg h, hsettle, Function.iterate_succ_apply]
      · intro s hs
        cases s with
        | zero => exact h
        | succ s => exact hfirst s (Nat.lt_of_succ_lt_succ hs)

namespace Reach

variable {n : Nat}

/-- What can be reached in so many steps at most. -/
def within (adjacent : Square n Bool) : Nat → Fin n → Fin n → Prop
  | 0, i, j => i = j
  | l + 1, i, j => ∃ k, within adjacent l i k ∧ (k = j ∨ adjacent.entry k j = true)

theorem within_succ {adjacent : Square n Bool} {l : Nat} {i j : Fin n}
    (h : within adjacent l i j) : within adjacent (l + 1) i j :=
  ⟨j, h, Or.inl rfl⟩

theorem within_mono {adjacent : Square n Bool} {l m : Nat} (hlm : l ≤ m) {i j : Fin n}
    (h : within adjacent l i j) : within adjacent m i j := by
  induction hlm with
  | refl => exact h
  | step _ ih => exact within_succ ih

/-- What some number of steps reaches, a path reaches. -/
theorem reflTransGen_of_within {adjacent : Square n Bool} {l : Nat} {i j : Fin n}
    (h : within adjacent l i j) : ReflTransGen (fun a b => adjacent.entry a b = true) i j := by
  induction l generalizing j with
  | zero => exact h ▸ .refl
  | succ l ih =>
    obtain ⟨k, hk, rfl | hkj⟩ := h
    · exact ih hk
    · exact (ih hk).tail hkj

/-- If some number of steps reaches nothing new, no way does. -/
theorem within_of_stable {adjacent : Square n Bool} {l : Nat} {i : Fin n}
    (hstable : ∀ j, within adjacent (l + 1) i j → within adjacent l i j) {j : Fin n}
    (h : ReflTransGen (fun a b => adjacent.entry a b = true) i j) : within adjacent l i j := by
  induction h with
  | refl => exact within_mono (Nat.zero_le l) rfl
  | tail _ hjk ih => exact hstable _ ⟨_, ih, Or.inr hjk⟩

/-- Until some number of steps reaches nothing new, every step reaches one more node. -/
theorem stable_or_card (adjacent : Square n Bool) (i : Fin n) (l : Nat) :
    (∃ m ≤ l, ∀ j, within adjacent (m + 1) i j → within adjacent m i j) ∨
    l < Nat.card {j // within adjacent l i j} := by
  induction l with
  | zero => exact Or.inr (Nat.card_pos_iff.mpr ⟨⟨⟨i, rfl⟩⟩, inferInstance⟩)
  | succ l ih =>
    rcases ih with ⟨m, hm, hstable⟩ | hcard
    · exact Or.inl ⟨m, Nat.le_succ_of_le hm, hstable⟩
    · by_cases hstable : ∀ j, within adjacent (l + 1) i j → within adjacent l i j
      · exact Or.inl ⟨l, Nat.le_succ l, hstable⟩
      · right
        push Not at hstable
        obtain ⟨j, hj, hnew⟩ := hstable
        have hlt : Nat.card {j // within adjacent l i j}
            < Nat.card {j // within adjacent (l + 1) i j} := by
          refine Set.ncard_lt_ncard (Set.ssubset_iff_of_subset (fun x hx => within_succ hx) |>.mpr
            ⟨j, hj, hnew⟩) (Set.toFinite _)
        omega

/-- As many steps as there are nodes reach everything that can be reached. -/
theorem within_of_reflTransGen {adjacent : Square n Bool} {i j : Fin n}
    (h : ReflTransGen (fun a b => adjacent.entry a b = true) i j) : within adjacent n i j := by
  rcases stable_or_card adjacent i n with ⟨m, hm, hstable⟩ | hcard
  · exact within_mono hm (within_of_stable hstable h)
  · have hle : Nat.card {j // within adjacent n i j} ≤ Nat.card (Fin n) :=
      Nat.card_le_card_of_injective _ Subtype.val_injective
    rw [Nat.card_fin] at hle
    omega

/-! ## Rounds -/

/-- What has been reached after so many rounds. -/
def rounds (adjacent : Square n Bool) (r : Nat) : Square n Bool :=
  (extend adjacent)^[r] (initial adjacent)

theorem entry_initial {adjacent : Square n Bool} {i j : Fin n} :
    (initial adjacent).entry i j = true ↔ within adjacent 1 i j := by
  rw [initial, Square.entry_ofFn, Bool.or_eq_true, decide_eq_true_eq]
  constructor
  · intro h
    exact ⟨i, rfl, h⟩
  · rintro ⟨k, rfl, h⟩
    exact h

theorem entry_extend {adjacent reach : Square n Bool} {i j : Fin n} :
    (extend adjacent reach).entry i j = true
      ↔ ∃ k, reach.entry i k = true ∧ (k = j ∨ adjacent.entry k j = true) := by
  rw [extend, Square.entry_ofFn, Bool.or_eq_true, List.any_eq_true]
  simp only [Bool.and_eq_true]
  constructor
  · rintro (h | ⟨k, _, hk, hkj⟩)
    · exact ⟨j, h, .inl rfl⟩
    · exact ⟨k, hk, .inr hkj⟩
  · rintro ⟨k, hk, rfl | hkj⟩
    · exact .inl hk
    · exact .inr ⟨k, List.mem_finRange k, hk, hkj⟩

/-- **A round reaches one edge further.** -/
theorem entry_rounds {adjacent : Square n Bool} {r : Nat} {i j : Fin n} :
    (rounds adjacent r).entry i j = true ↔ within adjacent (r + 1) i j := by
  induction r generalizing j with
  | zero => exact entry_initial
  | succ r ih =>
    rw [rounds, Function.iterate_succ_apply', entry_extend]
    exact exists_congr fun k => and_congr_left' ih

/-- If a round changes nothing, every path has been followed to its end. -/
theorem entry_rounds_of_unchanged {adjacent : Square n Bool} {r : Nat}
    (h : rounds adjacent (r + 1) = rounds adjacent r) {i j : Fin n} :
    (rounds adjacent r).entry i j = true
      ↔ ReflTransGen (fun a b => adjacent.entry a b = true) i j := by
  rw [entry_rounds]
  refine ⟨reflTransGen_of_within, within_of_stable fun j hj => ?_⟩
  rw [← entry_rounds] at hj ⊢
  rwa [← h]

/-- As many rounds as there are nodes reach everything that can be reached. -/
theorem entry_rounds_of_le {adjacent : Square n Bool} {r : Nat} (hr : n ≤ r) {i j : Fin n} :
    (rounds adjacent r).entry i j = true
      ↔ ReflTransGen (fun a b => adjacent.entry a b = true) i j := by
  rw [entry_rounds]
  exact ⟨reflTransGen_of_within,
    fun h => within_mono (Nat.le_succ_of_le hr) (within_of_reflTransGen h)⟩

/-- As many rounds as there are nodes leave nothing to change. -/
theorem rounds_unchanged (adjacent : Square n Bool) :
    rounds adjacent (n + 1) = rounds adjacent n := by
  refine Square.ext_entry fun i j => ?_
  rw [Bool.eq_iff_iff, entry_rounds_of_le (Nat.le_succ n), entry_rounds_of_le (Nat.le_refl n)]

/-- **The closure is exact.** -/
theorem entry_closure (adjacent : Square n Bool) (i j : Fin n) :
    (closure adjacent).entry i j = true
      ↔ ReflTransGen (fun a b => adjacent.entry a b = true) i j := by
  rw [closure, settle_eq_iterate]
  exact entry_rounds_of_le (Nat.le_refl n)

/-- **Stopping early misses no path.** In every graph some round changes nothing, at the latest
after as many rounds as there are nodes, and the closure is what the first such round has reached.
Whichever round changes nothing, by then exactly those pairs have been reached that a path joins, be
it without an edge or with any number of them; and so it is for the closure. -/
theorem early_stop_misses_no_path (adjacent : Square n Bool) :
    (∃ r ≤ n, closure adjacent = rounds adjacent r ∧
      rounds adjacent (r + 1) = rounds adjacent r ∧
      ∀ s < r, rounds adjacent (s + 1) ≠ rounds adjacent s) ∧
    (∀ r, rounds adjacent (r + 1) = rounds adjacent r → ∀ i j,
      (rounds adjacent r).entry i j = true
        ↔ ReflTransGen (fun a b => adjacent.entry a b = true) i j) ∧
    ∀ i j, (closure adjacent).entry i j = true
      ↔ ReflTransGen (fun a b => adjacent.entry a b = true) i j := by
  refine ⟨?_, fun r hr i j => entry_rounds_of_unchanged hr, entry_closure adjacent⟩
  obtain ⟨r, hr, hclosure, hfixed, hfirst⟩ :=
    exists_settle_eq_iterate (extend adjacent) n (initial adjacent)
  refine ⟨r, hr, hclosure, ?_, hfirst⟩
  rcases Nat.lt_or_eq_of_le hr with hlt | rfl
  · exact hfixed hlt
  · exact rounds_unchanged adjacent

end Reach
end StochasticGrammar
