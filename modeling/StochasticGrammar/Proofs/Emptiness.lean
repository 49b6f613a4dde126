import Mathlib.Algebra.Order.BigOperators.Group.List
import StochasticGrammar.Proofs.Exact

/-!
# How probable it is to be empty

The probabilities of deriving nothing are computed in rounds, each from the round before alone,
until they move no more. A round is read here as a function of what every category had before,
whatever the order of the table: it sums, over the rules that can vanish, their probability times
what their symbols had. Started from zero, rounds only raise what is there.

> `Compiled.emptyProbability_eq`: the probabilities of a grammar are those of some round.

> `Compiled.emptyProbability_le`: one more round would not lower them.
-/

namespace StochasticGrammar

/-! ## Rounds -/

namespace Table

/-- A table that lists a value for every key is looked up like the function. -/
theorem get?_tabulate {κ ν : Type} [BEq κ] (f : κ → ν) (hf : ∀ a b, (a == b) = true → f a = f b)
    (names : List κ) (x : κ) :
    get? (names.map fun k => (k, f k)) x = if names.any (x == ·) then some (f x) else none := by
  induction names with
  | nil => rfl
  | cons k names ih =>
    rw [List.map_cons, get?_cons, ih, List.any_cons]
    by_cases hx : (x == k) = true
    · simp [hx, hf x k hx]
    · simp [hx]

end Table

namespace Empty

variable {P W : Type} [Probability P]

/-- What a round makes of what every category had before it. -/
def massStep (index : RuleIndex P W) (nullable : List Category) (before : Category → P)
    (x : Category) : P :=
  if nullable.contains x then
    Probability.sum (((index.rulesOf x).filter (isCovered nullable)).map fun r =>
      r.probability * Probability.prod (r.rhs.map before))
  else 0

omit [Probability P] in
/-- A round knows no category but those of its index and those that were known. -/
theorem mem_of_mem_foldl_vanish {index : RuleIndex P W} {known names : List Category}
    (hindex : ∀ entry ∈ index, entry.1 ∈ names) (hknown : ∀ y ∈ known, y ∈ names) :
    ∀ y ∈ index.foldl vanish known, y ∈ names := by
  induction index generalizing known with
  | nil => exact hknown
  | cons entry index ih =>
    rw [List.foldl_cons]
    refine ih (fun e he => hindex e (List.mem_cons_of_mem _ he)) ?_
    rcases vanish_cases known entry with ⟨heq, _⟩ | ⟨heq, _⟩
    · rw [heq]
      exact hknown
    · rw [heq]
      intro y hy
      rcases List.mem_append.mp hy with hy | hy
      · exact hknown y hy
      · rw [List.mem_singleton.mp hy]
        exact hindex entry List.mem_cons_self

omit [Probability P] in
/-- Only categories that have rules can be empty. -/
theorem mem_keys_of_mem_nullable {index : RuleIndex P W} {x : Category} (hx : x ∈ nullable index) :
    x ∈ index.keys := by
  refine settle_induction (p := fun known => ∀ y ∈ known, y ∈ index.keys) (fun known hknown => ?_)
    index.length (fun y hy => absurd hy List.not_mem_nil) x hx
  exact mem_of_mem_foldl_vanish (fun entry h => List.mem_map_of_mem h) hknown

/-- The table of masses lists the categories that can be empty. -/
def Lists (nullable : List Category) (e : Masses P) : Prop :=
  ∀ x, e.keys.any (x == ·) = nullable.contains x

theorem lists_zeroMasses (index : RuleIndex P W) :
    Lists (nullable index) (zeroMasses index (nullable index)) := by
  intro x
  have hkeys : Table.keys (zeroMasses index (nullable index))
      = index.keys.filter (nullable index).contains := by
    simp [zeroMasses, Table.keys, List.map_map, Function.comp_def]
  rw [hkeys, Bool.eq_iff_iff, List.any_eq_true, List.contains_iff_exists_mem_beq]
  constructor
  · rintro ⟨y, hy, hxy⟩
    obtain ⟨_, hy⟩ := List.mem_filter.mp hy
    obtain ⟨z, hz, hyz⟩ := List.contains_iff_exists_mem_beq.mp hy
    exact ⟨z, hz, BEq.trans hxy hyz⟩
  · rintro ⟨y, hy, hxy⟩
    refine ⟨y, List.mem_filter.mpr ⟨mem_keys_of_mem_nullable hy, ?_⟩, hxy⟩
    exact List.contains_iff_exists_mem_beq.mpr ⟨y, hy, BEq.rfl⟩

theorem Lists.massRound {index : RuleIndex P W} {nullable : List Category} {e : Masses P}
    (h : Lists nullable e) : Lists nullable (massRound index nullable e) := by
  intro x
  rw [← h x]
  simp [Empty.massRound, Table.keys, List.map_map, Function.comp_def]

theorem massAt_zeroMasses (index : RuleIndex P W) (nullable : List Category) :
    massAt (zeroMasses index nullable) = fun _ => 0 := by
  funext x
  have hget := Table.get?_tabulate (fun _ : Category => (0 : P)) (fun _ _ _ => rfl)
    (index.keys.filter nullable.contains) x
  unfold massAt zeroMasses
  rw [hget]
  split <;> rfl

/-- A round computes its table category by category. -/
theorem massAt_massRound {index : RuleIndex P W} {nullable : List Category} {e : Masses P}
    (h : Lists nullable e) :
    massAt (massRound index nullable e) = massStep index nullable (massAt e) := by
  funext x
  have hround : massRound index nullable e = e.keys.map fun k => (k, Probability.sum
      (((index.rulesOf k).filter (isCovered nullable)).map fun r =>
        r.probability * Probability.prod (r.rhs.map (massAt e)))) := by
    simp [massRound, Table.keys, List.map_map, Function.comp_def]
  have hget := Table.get?_tabulate (fun k => Probability.sum
      (((index.rulesOf k).filter (isCovered nullable)).map fun r =>
        r.probability * Probability.prod (r.rhs.map (massAt e))))
    (fun a b hab => by
      dsimp only [RuleIndex.rulesOf]
      rw [Table.get?_congr index hab]) e.keys x
  rw [massAt, hround, hget, h x, massStep]
  split <;> rfl

/-- What settles has gone through rounds, of which the last is the first to change little. -/
theorem settleMasses_eq_some_iff {round : Masses P → Masses P} {n : Nat} {e e' : Masses P} :
    settleMasses round n e = some e' ↔ ∃ k < n, e' = round^[k + 1] e ∧
      change (round^[k] e) (round^[k + 1] e) ≤ 1e-12 ∧
      ∀ j < k, ¬ change (round^[j] e) (round^[j + 1] e) ≤ 1e-12 := by
  induction n generalizing e with
  | zero =>
    constructor
    · intro h
      cases h
    · rintro ⟨k, hk, _⟩
      exact absurd hk (Nat.not_lt_zero k)
  | succ n ih =>
    rw [settleMasses]
    split
    · rename_i hsmall
      constructor
      · intro h
        cases h
        exact ⟨0, Nat.succ_pos n, rfl, hsmall, fun j hj => absurd hj (Nat.not_lt_zero j)⟩
      · rintro ⟨k, _, rfl, _, hnot⟩
        cases k with
        | zero => rfl
        | succ k => exact absurd hsmall (hnot 0 (Nat.succ_pos k))
    · rename_i hlarge
      -- the first round is not the one, so all others are one round further away
      rw [ih]
      constructor
      · rintro ⟨k, hk, rfl, hsmall, hnot⟩
        refine ⟨k + 1, Nat.succ_lt_succ hk, rfl, hsmall, fun j hj => ?_⟩
        cases j with
        | zero => exact hlarge
        | succ j => exact hnot j (Nat.lt_of_succ_lt_succ hj)
      · rintro ⟨k, hk, rfl, hsmall, hnot⟩
        cases k with
        | zero => exact absurd hsmall hlarge
        | succ k =>
          exact ⟨k, Nat.lt_of_succ_lt_succ hk, rfl, hsmall,
            fun j hj => hnot (j + 1) (Nat.succ_lt_succ hj)⟩

/-- What the categories have after so many rounds. -/
def massAfter (index : RuleIndex P W) (n : Nat) : Category → P :=
  (massStep index (nullable index))^[n] fun _ => 0

theorem massAfter_succ (index : RuleIndex P W) (n : Nat) :
    massAfter index (n + 1) = massStep index (nullable index) (massAfter index n) :=
  Function.iterate_succ_apply' _ n _

/-- The table after so many rounds. -/
def massesAfter (index : RuleIndex P W) (n : Nat) : Masses P :=
  (massRound index (nullable index))^[n] (zeroMasses index (nullable index))

theorem massesAfter_succ (index : RuleIndex P W) (n : Nat) :
    massesAfter index (n + 1) = massRound index (nullable index) (massesAfter index n) :=
  Function.iterate_succ_apply' _ n _

theorem massAt_massesAfter (index : RuleIndex P W) (n : Nat) :
    massAt (massesAfter index n) = massAfter index n ∧
      Lists (nullable index) (massesAfter index n) := by
  induction n with
  | zero => exact ⟨massAt_zeroMasses index _, lists_zeroMasses index⟩
  | succ n ih =>
    rw [massesAfter_succ, massAfter_succ, massAt_massRound ih.2, ih.1]
    exact ⟨rfl, ih.2.massRound⟩

/-- What settles is the table of a round. -/
theorem settleMasses_eq_some {index : RuleIndex P W} {n : Nat} {e : Masses P}
    (h : settleMasses (massRound index (nullable index)) n (zeroMasses index (nullable index))
      = some e) : ∃ k, e = massesAfter index (k + 1) ∧
        change (massesAfter index k) (massesAfter index (k + 1)) ≤ 1e-12 := by
  obtain ⟨k, _, heq, hchange, _⟩ := settleMasses_eq_some_iff.mp h
  exact ⟨k, heq, hchange⟩

/-- The masses that are returned are the table of the first round that changed little, and not above
one by more than is tolerated. -/
theorem masses_eq_ok {index : RuleIndex P W} {e : Masses P}
    (h : masses index (nullable index) = .ok e) :
    ∃ k, e = massesAfter index (k + 1) ∧
      change (massesAfter index k) (massesAfter index (k + 1)) ≤ 1e-12 ∧
      ∀ entry ∈ e, ¬ 1 + 1e-9 < entry.2 := by
  unfold masses at h
  split at h
  · cases h
  · rename_i hsettled
    split at h
    · cases h
    · rename_i hnone
      cases h
      obtain ⟨k, heq, hchange⟩ := settleMasses_eq_some hsettled
      refine ⟨k, heq, hchange, fun entry hentry => ?_⟩
      exact of_decide_eq_false (Bool.eq_false_iff.mpr (List.find?_eq_none.mp hnone entry hentry))

/-- The rounds do not run out if one of them changes little. -/
theorem masses_ne_unsettled {index : RuleIndex P W} {k : Nat} (hk : k < maxRounds)
    (hsmall : change (massesAfter index k) (massesAfter index (k + 1)) ≤ 1e-12) :
    masses index (nullable index) ≠ .error .unsettled := by
  classical
  -- the first round that changes little is one of those that are made
  have hexists : ∃ j, change (massesAfter index j) (massesAfter index (j + 1)) ≤ 1e-12 :=
    ⟨k, hsmall⟩
  have hsettle := settleMasses_eq_some_iff.mpr ⟨Nat.find hexists,
    (Nat.find_min' hexists hsmall).trans_lt hk, rfl, Nat.find_spec hexists,
    fun j hj => Nat.find_min hexists hj⟩
  unfold masses
  rw [hsettle]
  dsimp only
  intro h
  split at h
  · cases h
  · cases h

/-- What is refused for its size stands in the table of a round. -/
theorem masses_eq_excessive {index : RuleIndex P W} {x : Category} {p : P}
    (h : masses index (nullable index) = .error (.excessive x p)) :
    ∃ k, (x, p) ∈ massesAfter index (k + 1) ∧ 1 + 1e-9 < p := by
  unfold masses at h
  split at h
  · cases h
  · rename_i hsettled
    split at h
    · rename_i hfind
      cases h
      obtain ⟨k, rfl, _⟩ := settleMasses_eq_some hsettled
      have hlarge := List.find?_some hfind
      exact ⟨k, List.mem_of_find?_eq_some hfind, of_decide_eq_true hlarge⟩
    · cases h

end Empty

/-! ## The probabilities of a grammar -/

namespace Grammar

variable {P W : Type} [DecidableEq P] [DecidableEq W] [Probability P] {solver : Solver P}
  {G : Grammar P W}

/-- The masses of a grammar are the table of the first round that changed little, and not above one
by more than is tolerated. -/
theorem Compiled.masses_eq (hG : G.Compiled solver) :
    ∃ k, G.masses = Empty.massesAfter G.index (k + 1) ∧
      Empty.change (Empty.massesAfter G.index k) (Empty.massesAfter G.index (k + 1)) ≤ 1e-12 ∧
      ∀ entry ∈ G.masses, ¬ 1 + 1e-9 < entry.2 := by
  have hmasses := hG.masses
  rw [hG.nullable] at hmasses
  exact Empty.masses_eq_ok hmasses

/-- **The probabilities of being empty are those of some round.** -/
theorem Compiled.emptyProbability_eq (hG : G.Compiled solver) :
    ∃ k, G.emptyProbability = Empty.massAfter G.index (k + 1) := by
  obtain ⟨k, heq, _⟩ := hG.masses_eq
  refine ⟨k, ?_⟩
  rw [← (Empty.massAt_massesAfter G.index (k + 1)).1, ← heq]
  rfl

theorem Compiled.emptyProbability_of_not_nullable (hG : G.Compiled solver) {x : Category}
    (hx : ¬ G.isNullable x = true) : G.emptyProbability x = 0 := by
  obtain ⟨k, hk⟩ := hG.emptyProbability_eq
  rw [hk, Empty.massAfter_succ, Empty.massStep, ← hG.nullable,
    if_neg (show ¬ G.nullable.contains x = true from hx)]

/-- What is not expanded is not empty. -/
theorem Compiled.emptyProbability_of_not_mem (hG : G.Compiled solver) {x : Category}
    (hx : x ∉ G.names) : G.emptyProbability x = 0 := by
  refine hG.emptyProbability_of_not_nullable fun hnull => hx ?_
  obtain ⟨y, hy, hxy⟩ := List.contains_iff_exists_mem_beq.mp hnull
  rw [hG.nullable] at hy
  have hname : y ∈ G.names := Empty.mem_keys_of_mem_nullable hy
  exact Category.eq_of_beq (hG.names_plain hname) (BEq.symm hxy) ▸ hname

end Grammar

/-! ## Exact rounds -/

section Exact

variable {K W : Type} [Field K] [LinearOrder K]

theorem Probability.sum_eq (ps : List K) : Probability.sum ps = ps.sum :=
  List.sum_eq_foldl.symm

variable [IsStrictOrderedRing K]

namespace Empty

variable {index : RuleIndex K W} {known : List Category}

/-- What a round sums up for a category, over all of its rules. -/
theorem massStep_le (hpos : ∀ x, ∀ r ∈ index.rulesOf x, 0 ≤ r.probability) {f g : Category → K}
    (h : ∀ x, 0 ≤ f x ∧ f x ≤ g x) (x : Category) :
    0 ≤ massStep index known f x ∧ massStep index known f x ≤ massStep index known g x ∧
      massStep index known g x
        ≤ ((index.rulesOf x).map fun r => r.probability * (r.rhs.map g).prod).sum := by
  have hterm : ∀ r ∈ index.rulesOf x, 0 ≤ r.probability * (r.rhs.map f).prod ∧
      r.probability * (r.rhs.map f).prod ≤ r.probability * (r.rhs.map g).prod := by
    intro r hr
    have hle := List.prod_map_le_prod_map₀ (s := r.rhs) f g (fun y _ => (h y).1) fun y _ => (h y).2
    refine ⟨mul_nonneg (hpos x r hr) (List.prod_nonneg fun w hw => ?_),
      mul_le_mul_of_nonneg_left hle (hpos x r hr)⟩
    obtain ⟨y, _, rfl⟩ := List.mem_map.mp hw
    exact (h y).1
  have hall : 0 ≤ ((index.rulesOf x).map fun r => r.probability * (r.rhs.map g).prod).sum := by
    refine List.sum_nonneg fun w hw => ?_
    obtain ⟨r, hr, rfl⟩ := List.mem_map.mp hw
    exact (hterm r hr).1.trans (hterm r hr).2
  unfold massStep
  split
  · simp only [Probability.sum_eq, Probability.prod_eq]
    have hmem : ∀ r ∈ (index.rulesOf x).filter (isCovered known), r ∈ index.rulesOf x :=
      fun r hr => (List.mem_filter.mp hr).1
    refine ⟨List.sum_nonneg fun w hw => ?_, List.sum_le_sum fun r hr => (hterm r (hmem r hr)).2, ?_⟩
    · obtain ⟨r, hr, rfl⟩ := List.mem_map.mp hw
      exact (hterm r (hmem r hr)).1
    · refine (List.filter_sublist.map _).sum_le_sum fun w hw => ?_
      obtain ⟨r, hr, rfl⟩ := List.mem_map.mp hw
      exact (hterm r hr).1.trans (hterm r hr).2
  · exact ⟨le_refl 0, le_refl 0, hall⟩

/-- Rounds only raise what is there. -/
theorem massAfter_le_succ (hpos : ∀ x, ∀ r ∈ index.rulesOf x, 0 ≤ r.probability) (n : Nat)
    (x : Category) : 0 ≤ massAfter index n x ∧ massAfter index n x ≤ massAfter index (n + 1) x := by
  induction n generalizing x with
  | zero =>
    refine ⟨le_refl 0, ?_⟩
    rw [massAfter_succ]
    exact (massStep_le hpos (fun _ => ⟨le_refl 0, le_refl 0⟩) x).1
  | succ n ih =>
    rw [massAfter_succ, massAfter_succ _ (n + 1)]
    exact ⟨(massStep_le hpos ih x).1, (massStep_le hpos ih x).2.1⟩

/-- **Rounds stay below whatever a round does not raise.** -/
theorem massAfter_le_of_closed (hpos : ∀ x, ∀ r ∈ index.rulesOf x, 0 ≤ r.probability)
    {e : Category → K} (he : ∀ x, 0 ≤ e x)
    (hclosed : ∀ x, massStep index (nullable index) e x ≤ e x) (n : Nat) (x : Category) :
    massAfter index n x ≤ e x := by
  induction n generalizing x with
  | zero => exact he x
  | succ n ih =>
    rw [massAfter_succ]
    have hbelow := fun y => And.intro (massAfter_le_succ hpos n y).1 (ih y)
    exact (massStep_le hpos hbelow x).2.1.trans (hclosed x)

/-- If the probabilities of no category sum up to more than one, nothing rises above one. -/
theorem massAfter_le_one (hpos : ∀ x, ∀ r ∈ index.rulesOf x, 0 ≤ r.probability)
    (hsum : ∀ x, ((index.rulesOf x).map Rule.probability).sum ≤ 1) (n : Nat) (x : Category) :
    massAfter index n x ≤ 1 := by
  refine massAfter_le_of_closed hpos (e := fun _ => 1) (fun _ => zero_le_one) (fun y => ?_) n x
  refine (massStep_le hpos (fun _ => ⟨zero_le_one, le_refl 1⟩) y).2.2.trans (le_trans ?_ (hsum y))
  refine List.sum_le_sum fun r _ => ?_
  rw [List.map_const', List.prod_replicate, one_pow, mul_one]

end Empty

namespace Grammar

variable [DecidableEq W] {solver : Solver K} {G : Grammar K W}

omit [IsStrictOrderedRing K] in
theorem Compiled.probability_nonneg (hG : G.Compiled solver) :
    ∀ x, ∀ r ∈ G.index.rulesOf x, 0 ≤ r.probability :=
  fun _ _ hr => (hG.probability_mem_unit (hG.sourceRulesOf.mp hr).1).1.le

theorem Compiled.massStep_le (hG : G.Compiled solver) {f g : Category → K}
    (h : ∀ x, 0 ≤ f x ∧ f x ≤ g x) (x : Category) :
    0 ≤ Empty.massStep G.index G.nullable f x ∧
      Empty.massStep G.index G.nullable f x ≤ Empty.massStep G.index G.nullable g x ∧
      Empty.massStep G.index G.nullable g x
        ≤ ((G.sourceRulesOf x).map fun r => r.probability * (r.rhs.map g).prod).sum :=
  Empty.massStep_le hG.probability_nonneg h x

theorem Compiled.massAfter_le_succ (hG : G.Compiled solver) (n : Nat) (x : Category) :
    0 ≤ Empty.massAfter G.index n x ∧
      Empty.massAfter G.index n x ≤ Empty.massAfter G.index (n + 1) x :=
  Empty.massAfter_le_succ hG.probability_nonneg n x

theorem Compiled.emptyProbability_nonneg (hG : G.Compiled solver) (x : Category) :
    0 ≤ G.emptyProbability x := by
  obtain ⟨k, hk⟩ := hG.emptyProbability_eq
  rw [hk]
  exact (hG.massAfter_le_succ (k + 1) x).1

/-- What is not expanded has no rules to sum up. -/
theorem Compiled.sum_sourceRulesOf_le_one (hG : G.Compiled solver)
    (h : ∀ x ∈ G.names, ((G.sourceRulesOf x).map Rule.probability).sum ≤ 1) (x : Category) :
    ((G.sourceRulesOf x).map Rule.probability).sum ≤ 1 := by
  by_cases hx : x ∈ G.names
  · exact h x hx
  · have hnone : G.sourceRulesOf x = [] := List.eq_nil_iff_forall_not_mem.mpr fun r hr =>
      hx (hG.mem_names.mpr ⟨r, hG.sourceRulesOf.mp hr⟩)
    rw [hnone]
    exact zero_le_one

/-- If the probabilities of no category sum up to more than one, no category is empty with a
probability above one. -/
theorem Compiled.emptyProbability_le_one (hG : G.Compiled solver)
    (hsum : ∀ x ∈ G.names, ((G.sourceRulesOf x).map Rule.probability).sum ≤ 1) (x : Category) :
    G.emptyProbability x ≤ 1 := by
  obtain ⟨k, hk⟩ := hG.emptyProbability_eq
  rw [hk]
  exact Empty.massAfter_le_one hG.probability_nonneg (hG.sum_sourceRulesOf_le_one hsum) (k + 1) x

/-- **One more round would not lower them**, nor would it if every rule counted. -/
theorem Compiled.emptyProbability_le (hG : G.Compiled solver) (x : Category) :
    G.emptyProbability x
      ≤ ((G.sourceRulesOf x).map fun r =>
          r.probability * (r.rhs.map G.emptyProbability).prod).sum := by
  obtain ⟨k, hk⟩ := hG.emptyProbability_eq
  have hnext := (hG.massAfter_le_succ (k + 1) x).2
  rw [Empty.massAfter_succ _ (k + 1), ← hk, ← hG.nullable] at hnext
  refine hnext.trans (hG.massStep_le (fun y => ⟨?_, le_refl _⟩) x).2.2
  exact hG.emptyProbability_nonneg y

end Grammar

end Exact

end StochasticGrammar
