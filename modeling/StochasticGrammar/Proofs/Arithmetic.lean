import StochasticGrammar.Score.Probability

/-!
# Laws of arithmetic

What the theory asks of the numbers that probabilities are. Nothing here needs exact arithmetic: a
sum or a product may be rounded, as long as it is rounded on the right side of zero and one. The
laws are kept in two classes, because which states a chart holds depends on the first one only.

* `PositiveSums`: sums of positive numbers are positive, and zero is not.
* `UnitProducts`: on the numbers from zero to one, the order is a strict weak order and a product is
  at most each of its factors.
-/

namespace StochasticGrammar

/-- Sums of positive numbers are positive, and zero is not. -/
class PositiveSums (P : Type) [Probability P] : Prop where
  zero_not_pos : ¬ (0 : P) < 0
  zero_add_pos : ∀ {p : P}, 0 < p → 0 < 0 + p
  add_pos : ∀ {p q : P}, 0 < p → 0 < q → 0 < p + q

namespace Probability

variable {P : Type} [Probability P]

/-- A number from zero to one. -/
def InUnit (p : P) : Prop :=
  0 ≤ p ∧ p ≤ 1

section PositiveSums

variable [PositiveSums P]

theorem foldl_add_pos {p : P} (hp : 0 < p) {ps : List P} (h : ∀ q ∈ ps, 0 < q) :
    0 < ps.foldl (· + ·) p := by
  induction ps generalizing p with
  | nil => exact hp
  | cons q ps ih =>
    exact ih (PositiveSums.add_pos hp (h q List.mem_cons_self))
      (fun r hr => h r (List.mem_cons_of_mem _ hr))

/-- A sum of positive numbers is positive unless it is empty. -/
theorem sum_pos_iff {ps : List P} (h : ∀ p ∈ ps, 0 < p) : 0 < sum ps ↔ ps ≠ [] := by
  cases ps with
  | nil => exact ⟨fun h0 => absurd h0 PositiveSums.zero_not_pos, fun h0 => absurd rfl h0⟩
  | cons p ps =>
    refine ⟨fun _ => List.cons_ne_nil _ _, fun _ => ?_⟩
    exact foldl_add_pos (PositiveSums.zero_add_pos (h p List.mem_cons_self))
      (fun q hq => h q (List.mem_cons_of_mem _ hq))

end PositiveSums

end Probability

/-- On the numbers from zero to one, the order is a strict weak order and a product is at most each
of its factors. -/
class UnitProducts (P : Type) [Probability P] : Prop where
  one_inUnit : Probability.InUnit (1 : P)
  inUnit_of_isProper : ∀ {p : P}, Probability.IsProper p → Probability.InUnit p
  mul_inUnit : ∀ {p q : P}, Probability.InUnit p → Probability.InUnit q →
    Probability.InUnit (p * q)
  not_left_lt_mul : ∀ {p q : P}, Probability.InUnit p → Probability.InUnit q → ¬ p < p * q
  not_right_lt_mul : ∀ {p q : P}, Probability.InUnit p → Probability.InUnit q → ¬ q < p * q
  lt_asymm : ∀ {p q : P}, Probability.InUnit p → Probability.InUnit q → p < q → ¬ q < p
  not_lt_trans : ∀ {p q r : P}, Probability.InUnit p → Probability.InUnit q →
    Probability.InUnit r → ¬ p < q → ¬ q < r → ¬ p < r

namespace Probability

variable {P : Type} [Probability P] [UnitProducts P]

theorem foldl_mul_inUnit {p : P} (hp : InUnit p) {ps : List P} (h : ∀ q ∈ ps, InUnit q) :
    InUnit (ps.foldl (· * ·) p) := by
  induction ps generalizing p with
  | nil => exact hp
  | cons q ps ih =>
    exact ih (UnitProducts.mul_inUnit hp (h q List.mem_cons_self))
      (fun r hr => h r (List.mem_cons_of_mem _ hr))

theorem prod_inUnit {ps : List P} (h : ∀ p ∈ ps, InUnit p) : InUnit (prod ps) :=
  foldl_mul_inUnit UnitProducts.one_inUnit h

/-- A running product never rises. -/
theorem not_lt_foldl_mul {p : P} (hp : InUnit p) {ps : List P} (h : ∀ q ∈ ps, InUnit q) :
    ¬ p < ps.foldl (· * ·) p := by
  induction ps generalizing p with
  | nil => exact fun hlt => UnitProducts.lt_asymm hp hp hlt hlt
  | cons q ps ih =>
    have hq := h q List.mem_cons_self
    have hps : ∀ r ∈ ps, InUnit r := fun r hr => h r (List.mem_cons_of_mem _ hr)
    have hpq := UnitProducts.mul_inUnit hp hq
    exact UnitProducts.not_lt_trans hp hpq (foldl_mul_inUnit hpq hps)
      (UnitProducts.not_left_lt_mul hp hq) (ih hpq hps)

/-- A running product is at most each number that it has taken in. -/
theorem not_lt_foldl_mul_of_mem {p : P} (hp : InUnit p) {ps : List P} (h : ∀ q ∈ ps, InUnit q)
    {q : P} (hq : q ∈ ps) : ¬ q < ps.foldl (· * ·) p := by
  induction ps generalizing p with
  | nil => cases hq
  | cons r ps ih =>
    have hr := h r List.mem_cons_self
    have hps : ∀ x ∈ ps, InUnit x := fun x hx => h x (List.mem_cons_of_mem _ hx)
    have hpr := UnitProducts.mul_inUnit hp hr
    rcases List.mem_cons.mp hq with rfl | hq
    · exact UnitProducts.not_lt_trans hr hpr (foldl_mul_inUnit hpr hps)
        (UnitProducts.not_right_lt_mul hp hr) (not_lt_foldl_mul hpr hps)
    · exact ih hpr hps hq

/-- A product is at most each of its factors. -/
theorem not_lt_prod_of_mem {ps : List P} (h : ∀ q ∈ ps, InUnit q) {q : P} (hq : q ∈ ps) :
    ¬ q < prod ps :=
  not_lt_foldl_mul_of_mem UnitProducts.one_inUnit h hq

end Probability
end StochasticGrammar
