/-!
# Repeating a step until it settles

A value is improved by one and the same step until the step changes nothing any more. The number of
repetitions is given; `step_settle` says when it is enough.
-/

namespace StochasticGrammar

/-- Repeats a step until it changes nothing, at most so many times. -/
def settle {α : Type} [DecidableEq α] (step : α → α) : Nat → α → α
  | 0, x => x
  | n + 1, x =>
    let y := step x
    if y = x then x else settle step n y

/-- A value that the step does not change is settled already. -/
theorem settle_of_fixed {α : Type} [DecidableEq α] (step : α → α) (n : Nat) {x : α}
    (h : step x = x) : settle step n x = x := by
  cases n <;> simp [settle, h]

/-- What every step keeps, settling keeps. -/
theorem settle_induction {α : Type} [DecidableEq α] {step : α → α} {p : α → Prop}
    (hstep : ∀ x, p x → p (step x)) (n : Nat) {x : α} (hx : p x) : p (settle step n x) := by
  induction n generalizing x with
  | zero => exact hx
  | succ n ih =>
    simp only [settle]
    split
    · exact hx
    · exact ih (hstep x hx)

/-- A step that raises a bounded measure whenever it changes anything is settled in as many rounds
as the measure has room. -/
theorem step_settle {α : Type} [DecidableEq α] {step : α → α} {measure : α → Nat} {bound : Nat}
    (hlt : ∀ x, step x ≠ x → measure x < measure (step x)) (hle : ∀ x, measure x ≤ bound)
    (n : Nat) {x : α} (hn : bound ≤ n + measure x) : step (settle step n x) = settle step n x := by
  induction n generalizing x with
  | zero =>
    by_cases h : step x = x
    · simpa [settle] using h
    · have := hlt x h
      have := hle (step x)
      omega
  | succ n ih =>
    simp only [settle]
    split
    · assumption
    · rename_i h
      have := hlt x h
      exact ih (by omega)

end StochasticGrammar
