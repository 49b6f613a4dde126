import StochasticGrammar.Rule

/-!
# Leaving out empty symbols

A parser that never looks for empty phrases needs, for every rule with symbols that can be empty,
the variants with some of them left out. A variant's probability is scaled by the probabilities that
the symbols left out are empty; its best score by their best empty derivations.
-/

namespace StochasticGrammar

/-- All ways to choose `k` members, earlier members first. -/
def choose {α : Type} : Nat → List α → List (List α)
  | 0, _ => [[]]
  | _ + 1, [] => []
  | k + 1, x :: xs => (choose k xs).map (x :: ·) ++ choose (k + 1) xs

example : choose 2 [1, 2, 3] = [[1, 2], [1, 3], [2, 3]] := rfl

/-- The choices of `k` members are the sublists of length `k`. -/
theorem mem_choose {α : Type} {k : Nat} {xs ys : List α} :
    ys ∈ choose k xs ↔ ys.Sublist xs ∧ ys.length = k := by
  induction xs generalizing k ys with
  | nil =>
    cases k with
    | zero => cases ys <;> simp [choose]
    | succ k => cases ys <;> simp [choose]
  | cons x xs ih =>
    cases k with
    | zero =>
      cases ys <;> simp [choose]
    | succ k =>
      simp only [choose, List.mem_append, List.mem_map, ih]
      constructor
      · rintro (⟨zs, ⟨hsub, hlen⟩, rfl⟩ | ⟨hsub, hlen⟩)
        · exact ⟨hsub.cons_cons x, by simp [hlen]⟩
        · exact ⟨hsub.cons x, hlen⟩
      · rintro ⟨hsub, hlen⟩
        cases hsub with
        | cons _ h => exact Or.inr ⟨h, hlen⟩
        | cons_cons _ h => exact Or.inl ⟨_, ⟨h, by simpa using hlen⟩, rfl⟩

namespace Omission

variable {P W : Type}

/-- The places of a right-hand side whose symbol can be empty, with the symbol. -/
def candidates (nullable rhs : List Category) : List (Category × Nat) :=
  rhs.zipIdx.filter fun place => nullable.contains place.1

/-- The ways to leave out one or more of the places but not the whole right-hand side, fewest
first. -/
def omissions (nullable rhs : List Category) : List (List (Category × Nat)) :=
  let places := candidates nullable rhs
  ((List.range' 1 places.length).flatMap fun k => choose k places).filter fun o =>
    o.length != rhs.length

/-- The symbols that stay. -/
def remaining (rhs : List Category) (omitted : List Nat) : List Category :=
  (rhs.zipIdx.filter fun place => !omitted.contains place.2).map (·.1)

variable [Probability P]

/-- The variant of a rule with some places left out. -/
def variant (A : ScoreAlgebra P W) (best : Category → P) (r : Rule P W)
    (omission : List (Category × Nat)) (p : P) : Except (ImproperRule P) (Production P W) := do
  let omitted := omission.map (·.2)
  let rule ← Rule.make
    ⟨⟨r.kind, r.lhs, remaining r.rhs omitted⟩, p, A.ofProbability p, omitted.map Int.ofNat, 0⟩
    (some r)
  return ⟨rule, A.ofProbability
    (r.probability * Probability.prod (omission.map fun place => best place.1))⟩

/-- The variants of a rule; those without any probability are dropped. -/
def variants (A : ScoreAlgebra P W) (nullable : List Category) (mass best : Category → P)
    (r : Rule P W) : Except (ImproperRule P) (List (Production P W)) :=
  let scaled := (omissions nullable r.rhs).map fun o =>
    (o, r.probability * Probability.prod (o.map fun place => mass place.1))
  (scaled.filter fun entry => decide (¬ entry.2 ≤ 0)).mapM fun entry =>
    variant A best r entry.1 entry.2

/-- A rule and its variants; an empty rule has neither. -/
def expand (A : ScoreAlgebra P W) (nullable : List Category) (mass best : Category → P)
    (r : Rule P W) : Except (ImproperRule P) (List (Production P W)) :=
  if r.rhs.isEmpty then .ok []
  else return Production.ofRule r :: (← variants A nullable mass best r)

/-- The rules without empty right-hand sides that generate the same non-empty phrases. -/
def eliminate (A : ScoreAlgebra P W) (nullable : List Category) (mass best : Category → P)
    (rules : List (Rule P W)) : Except (ImproperRule P) (List (Production P W)) := do
  return (← rules.mapM (expand A nullable mass best)).flatten

end Omission
end StochasticGrammar
