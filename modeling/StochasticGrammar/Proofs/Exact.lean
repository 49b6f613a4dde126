import Mathlib.Algebra.Order.BigOperators.GroupWithZero.List
import Mathlib.Algebra.Order.Ring.Rat
import Mathlib.Data.Rat.Cast.OfScientific
import StochasticGrammar.Proofs.Arithmetic
import StochasticGrammar.Proofs.Improvement
import StochasticGrammar.Proofs.Restoration
import StochasticGrammar.Score.Linear

/-!
# Exact arithmetic

Every ordered field serves as probabilities, and in it all arithmetic is exact. Scores are exact
when each of them stands for a number of the field, products for products and the order for the
order: plain probabilities do, and so would true logarithms.

> `neverRaises_of_isExact`: exact scores never rise along a rule.

> `weight_of_isEmptyBest`, `weight_le_of_empty`: the chosen empty derivation of a category is the
> best one.
-/

namespace StochasticGrammar

variable {K W : Type} [Field K] [LinearOrder K]

/-! ## Ordered fields -/

/-- The arithmetic of an ordered field. -/
instance (priority := low) exactProbability : Probability K where
  decLt := inferInstance
  decLe := inferInstance
  isFinite _ := true
  total ps := ps.sum

theorem Probability.prod_eq (ps : List K) : Probability.prod ps = ps.prod :=
  List.prod_eq_foldl.symm

section Ordered

variable [IsStrictOrderedRing K]

theorem Probability.dist_eq (a b : K) : Probability.dist a b = |a - b| := by
  unfold Probability.dist
  split
  · next hlt => rw [abs_of_neg (sub_neg.mpr hlt), neg_sub]
  · next hge => rw [abs_of_nonneg (sub_nonneg.mpr (not_lt.mp hge))]

instance : PositiveSums K where
  zero_not_pos := lt_irrefl _
  zero_add_pos h := by rwa [zero_add]
  add_pos hp hq := add_pos hp hq

instance : UnitProducts K where
  one_inUnit := ⟨zero_le_one, le_refl _⟩
  inUnit_of_isProper h := ⟨h.2.1.le, h.2.2⟩
  mul_inUnit hp hq := ⟨mul_nonneg hp.1 hq.1, mul_le_one₀ hp.2 hq.1 hq.2⟩
  not_left_lt_mul hp hq := not_lt.mpr (mul_le_of_le_one_right hp.1 hq.2)
  not_right_lt_mul hp hq := not_lt.mpr (mul_le_of_le_one_left hq.1 hp.2)
  lt_asymm _ _ h := lt_asymm h
  not_lt_trans _ _ _ hpq hqr := not_lt.mpr ((not_lt.mp hqr).trans (not_lt.mp hpq))

end Ordered

/-! ## Exact scores -/

/-- Scores that stand for numbers: `value` says for which one. -/
structure ScoreAlgebra.IsExact (A : ScoreAlgebra K W) (value : W → K) : Prop where
  one : value A.one = 1
  mul : ∀ a b, value (A.mul a b) = value a * value b
  lt : ∀ a b, A.lt a b = true ↔ value a < value b
  ofProbability : ∀ {p}, 0 < p → value (A.ofProbability p) = p

/-- Plain probabilities are exact. -/
theorem isExact_linearScores : (linearScores K).IsExact id where
  one := rfl
  mul _ _ := rfl
  lt _ _ := decide_eq_true_iff
  ofProbability _ := rfl

variable [DecidableEq W] [IsStrictOrderedRing K] {solver : Solver K} {G : Grammar K W}

/-! ## The best empty derivations are the best ones -/

theorem prod_le_of_forall₂ {α : Type} {f : α → K} {xs : List α} {ws : List K}
    (h : List.Forall₂ (fun x w => 0 ≤ w ∧ w ≤ f x) xs ws) :
    0 ≤ ws.prod ∧ ws.prod ≤ (xs.map f).prod := by
  induction h with
  | nil => exact ⟨zero_le_one, le_refl _⟩
  | cons hxw _ ih =>
    rw [List.map_cons, List.prod_cons, List.prod_cons]
    exact ⟨mul_nonneg hxw.1 ih.1, mul_le_mul hxw.2 ih.2 ih.1 (hxw.1.trans hxw.2)⟩

namespace Empty

variable {rules : List (Rule K W)} {best : Choices K W}

omit [DecidableEq W] [IsStrictOrderedRing K] in
/-- The best probability of being empty is the chance that was chosen. -/
theorem bestAt_eq {x : Category} {p : K} (hx : chance best x = some p) : bestAt best x = p := by
  show (chance best x).getD 0 = p
  rw [hx]
  rfl

omit [DecidableEq W] [IsStrictOrderedRing K] in
/-- No rule is better than the choice of its category, if its symbols all have one. -/
theorem Chosen.mul_prod_le (h : Chosen rules best) {r : Rule K W} (hr : r ∈ rules)
    (hall : ∀ y ∈ r.rhs, ∃ v, chance best y = some v) :
    ∃ q, chance best r.lhs = some q ∧ r.probability * (r.rhs.map (bestAt best)).prod ≤ q := by
  have hvs : List.Forall₂ (fun y v => chance best y = some v) r.rhs (r.rhs.map (bestAt best)) := by
    rw [List.forall₂_map_right_iff, List.forall₂_same]
    intro y hy
    obtain ⟨v, hv⟩ := hall y hy
    rw [bestAt_eq hv]
    exact hv
  obtain ⟨q, hq, hnot⟩ := h.idle r hr _
    (by rw [offer, mapM_eq_some_iff.mpr hvs, Option.map_some])
  rw [Probability.prod_eq] at hnot
  exact ⟨q, hq, not_lt.mp hnot⟩

omit [DecidableEq W] in
/-- A choice has the probability of its rule times those of the choices below it: it may have been
computed from smaller ones, but no rule is better than it. -/
theorem Chosen.bestAt_of_choice (h : Chosen rules best) (hrules : ∀ r ∈ rules, 0 ≤ r.probability)
    {x : Category} {p : K} {r : Rule K W} (hx : Table.get? best x = some (p, r)) :
    bestAt best x = r.probability * (r.rhs.map (bestAt best)).prod := by
  have hchance : chance best x = some p := chance_eq_some_iff.mpr ⟨r, hx⟩
  obtain ⟨hmem, hlhs, ws, hp, hws⟩ := h.backed hx
  refine le_antisymm ?_ ?_
  · have hle := (prod_le_of_forall₂ (f := bestAt best) (hws.imp fun y w hyw => ?_)).2
    · rw [bestAt_eq hchance, hp, Probability.prod_eq]
      exact mul_le_mul_of_nonneg_left hle (hrules r hmem)
    · obtain ⟨hunit, v, hv, hnot⟩ := hyw
      rw [bestAt_eq hv]
      exact ⟨hunit.1, not_lt.mp hnot⟩
  · obtain ⟨q, hq, hle⟩ := h.mul_prod_le hmem fun y hy => by
      obtain ⟨_, _, _, v, hv, _⟩ := exists_right_of_mem hws hy
      exact ⟨v, hv⟩
    rw [bestAt_eq ((chance_congr best hlhs).symm.trans hq)]
    exact hle

omit [DecidableEq W] in
/-- **No empty derivation is better than the choice of its category.** -/
theorem Chosen.weight_le (h : Chosen rules best) (hrules : ∀ r ∈ rules, 0 ≤ r.probability)
    {d : Derivation K W} (hd : d.Vanishes rules) :
    ∃ v, chance best d.root = some v ∧ 0 ≤ d.weight Rule.probability ∧
      d.weight Rule.probability ≤ v := by
  induction hd with
  | @node r ds hr hroots hds ih =>
    have hall := (List.forall₂_and_left (p := (· ∈ ds)) ds r.rhs).mpr ⟨fun _ hd => hd, hroots⟩
    have hchoices : ∀ y ∈ r.rhs, ∃ v, chance best y = some v := by
      intro y hy
      obtain ⟨d, hd, hroot⟩ := exists_left_of_mem hroots hy
      obtain ⟨v, hv, _⟩ := ih d hd
      exact ⟨v, (chance_congr best hroot).symm.trans hv⟩
    have hweights : List.Forall₂ (fun y w => 0 ≤ w ∧ w ≤ bestAt best y) r.rhs
        (ds.map (Derivation.weight Rule.probability)) := by
      rw [List.forall₂_map_right_iff]
      refine (hall.imp fun d y hd => ?_).flip
      obtain ⟨v, hv, hnonneg, hle⟩ := ih d hd.1
      exact ⟨hnonneg, hle.trans_eq (bestAt_eq ((chance_congr best hd.2).symm.trans hv)).symm⟩
    obtain ⟨hnonneg, hle⟩ := prod_le_of_forall₂ hweights
    obtain ⟨q, hq, hrule⟩ := h.mul_prod_le hr hchoices
    rw [Derivation.weight_node]
    exact ⟨q, hq, mul_nonneg (hrules r hr) hnonneg,
      (mul_le_mul_of_nonneg_left hle (hrules r hr)).trans hrule⟩

end Empty

namespace Grammar

omit [DecidableEq W] [IsStrictOrderedRing K] in
theorem bestEmptyProbability_eq {x : Category} {p : K} (hx : Empty.chance G.choices x = some p) :
    G.bestEmptyProbability x = p :=
  Empty.bestAt_eq hx

namespace Compiled

omit [IsStrictOrderedRing K] in
/-- Rules have proper probabilities. -/
theorem probability_mem_unit (hG : G.Compiled solver) {r : Rule K W} (hr : r ∈ G.rules) :
    0 < r.probability ∧ r.probability ≤ 1 := by
  obtain ⟨_, _, hproper, rfl⟩ := hG.given r hr
  exact hproper.2

theorem bestEmptyProbability_of_choice (hG : G.Compiled solver) {x : Category} {p : K}
    {r : Rule K W} (hx : Table.get? G.choices x = some (p, r)) :
    G.bestEmptyProbability x = r.probability * (r.rhs.map G.bestEmptyProbability).prod :=
  hG.chosen.bestAt_of_choice (fun _ hr => (hG.probability_mem_unit hr).1.le) hx

end Compiled
end Grammar

namespace Parser

/-- The chosen empty derivation of a category has the probability that it was chosen for. -/
theorem weight_of_isEmptyBest (hG : G.Compiled solver) {d : Derivation K W}
    (h : IsEmptyBest G d) : d.weight Rule.probability = G.bestEmptyProbability d.root := by
  induction h with
  | @node r ds hr hroots _ ih =>
    obtain ⟨⟨p, r⟩, hget, rfl⟩ := Option.map_eq_some_iff.mp hr
    rw [Derivation.weight_node, Derivation.root_node, hG.bestEmptyProbability_of_choice hget,
      ← hroots, List.map_map]
    congr 2
    exact List.map_congr_left ih

/-- Every category that can be empty is empty with some probability. -/
theorem bestEmptyProbability_pos (hG : G.Compiled solver) {x : Category}
    (hx : G.isNullable x = true) : 0 < G.bestEmptyProbability x := by
  obtain ⟨d, hd, rfl, -⟩ := exists_isEmptyBest hG hx
  rw [← weight_of_isEmptyBest hG hd]
  clear hx
  induction hd with
  | @node r ds hr _ _ ih =>
    obtain ⟨⟨p, r⟩, hget, rfl⟩ := Option.map_eq_some_iff.mp hr
    rw [Derivation.weight_node]
    refine mul_pos (hG.probability_mem_unit (hG.chosen.backed hget).mem).1 (List.prod_pos ?_)
    intro w hw
    obtain ⟨d, hd, rfl⟩ := List.mem_map.mp hw
    exact ih d hd

/-- No category is empty with a best probability above one. -/
theorem bestEmptyProbability_le_one (hG : G.Compiled solver) {x : Category}
    (hx : G.isNullable x = true) : G.bestEmptyProbability x ≤ 1 := by
  obtain ⟨p, r, hget⟩ := hG.exists_choice hx
  have hchance : Empty.chance G.choices x = some p := by
    rw [Empty.chance, hget]
    rfl
  rw [Grammar.bestEmptyProbability_eq hchance]
  exact (hG.chosen.inUnit hchance).2

/-- No derivation has a negative probability. -/
theorem weight_nonneg (hG : G.Compiled solver) {d : Derivation K W} (h : d.IsSourceParse G) :
    0 ≤ d.weight Rule.probability := by
  induction h with
  | leaf => exact zero_le_one
  | @node r ds hr _ _ ih =>
    rw [Derivation.weight_node]
    refine mul_nonneg (hG.probability_mem_unit hr).1.le (List.prod_nonneg fun w hw => ?_)
    obtain ⟨d, hd, rfl⟩ := List.mem_map.mp hw
    exact ih d hd

omit [DecidableEq W] [LinearOrder K] [IsStrictOrderedRing K] [Field K] in
/-- A derivation without tokens vanishes. -/
theorem vanishes_of_empty {d : Derivation K W} (h : d.IsSourceParse G) (hempty : d.tokens = []) :
    d.Vanishes G.rules := by
  induction h with
  | leaf => cases hempty
  | @node r ds hr hroots _ ih =>
    rw [Derivation.tokens_node, List.flatMap_eq_nil_iff] at hempty
    refine .node hr ?_ fun d hd => ih d hd (hempty d hd)
    rw [← hroots, List.forall₂_map_right_iff, List.forall₂_same]
    exact fun d _ => BEq.rfl

/-- **No empty derivation is better than the chosen one**, and its category can be empty. -/
theorem weight_le_of_empty (hG : G.Compiled solver) {d : Derivation K W}
    (h : d.IsSourceParse G) (hempty : d.tokens = []) :
    G.isNullable d.root = true ∧ d.weight Rule.probability ≤ G.bestEmptyProbability d.root := by
  have hvanishes := vanishes_of_empty h hempty
  constructor
  · unfold Grammar.isNullable
    rw [hG.nullable, hG.index]
    exact Empty.contains_nullable_root hvanishes
  · obtain ⟨v, hv, _, hle⟩ :=
      hG.chosen.weight_le (fun _ hr => (hG.probability_mem_unit hr).1.le) hvanishes
    rw [Grammar.bestEmptyProbability_eq hv]
    exact hle

/-! ## Parsers that can be created -/

omit [IsStrictOrderedRing K] [DecidableEq W] in
/-- The chart may begin with the empty phrase if that has a proper probability. -/
theorem exists_emptyStart {goal : Category}
    (hmass : 0 < G.emptyProbability goal ∧ G.emptyProbability goal ≤ 1) :
    ∃ q, emptyStart G goal = .ok q := by
  have hproper : Probability.IsProper (G.emptyProbability goal) := ⟨rfl, hmass⟩
  unfold emptyStart Rule.make
  simp only [if_pos hproper]
  exact ⟨_, rfl⟩

omit [IsStrictOrderedRing K] in
/-- A parser can be created for every category whose empty probability is a proper one. -/
theorem exists_create {goal : Category} (hgoal : goal ≠ .start)
    (hmass : G.isNullable goal = true →
      0 < G.emptyProbability goal ∧ G.emptyProbability goal ≤ 1) :
    ∃ p, create G goal = .ok p := by
  have hseeds : ∃ column, seeds G goal = .ok column := by
    unfold seeds
    split
    · rename_i hnull
      obtain ⟨q, hq⟩ := exists_emptyStart (hmass hnull)
      rw [hq]
      exact ⟨_, rfl⟩
    · exact ⟨_, rfl⟩
  obtain ⟨column, hcolumn⟩ := hseeds
  unfold create
  rw [if_neg hgoal, hcolumn]
  exact ⟨_, rfl⟩

/-! ## Exact scores never rise -/

section Exact

variable {value : W → K}

/-- The symbols that a variant leaves out are empty with some probability. -/
theorem prod_omitted_mem_unit (hG : G.Compiled solver) {rhs : List Category}
    {o : List (Category × Nat)} (ho : o ∈ Omission.omissions G.nullable rhs) :
    0 < (o.map fun place => G.bestEmptyProbability place.1).prod ∧
      (o.map fun place => G.bestEmptyProbability place.1).prod ≤ 1 := by
  have hnull : ∀ place ∈ o, G.isNullable place.1 = true :=
    fun place hplace => (Omission.getElem?_of_mem_omission ho hplace).2
  constructor
  · refine List.prod_pos fun w hw => ?_
    obtain ⟨place, hplace, rfl⟩ := List.mem_map.mp hw
    exact bestEmptyProbability_pos hG (hnull place hplace)
  · have hle := List.prod_map_le_prod_map₀ (s := o) (fun place => G.bestEmptyProbability place.1)
      (fun _ => 1) (fun place hplace => (bestEmptyProbability_pos hG (hnull place hplace)).le)
      fun place hplace => bestEmptyProbability_le_one hG (hnull place hplace)
    simpa using hle

theorem value_variant (hG : G.Compiled solver) (hexact : G.algebra.IsExact value) {r : Rule K W}
    (hr : r ∈ G.rules) {o : List (Category × Nat)} (ho : o ∈ Omission.omissions G.nullable r.rhs) :
    value (Omission.production G.algebra G.emptyProbability G.bestEmptyProbability r o).best
      = r.probability * (o.map fun place => G.bestEmptyProbability place.1).prod := by
  have hpos := mul_pos (hG.probability_mem_unit hr).1 (prod_omitted_mem_unit hG ho).1
  rw [← Probability.prod_eq] at hpos ⊢
  exact hexact.ofProbability hpos

omit [IsStrictOrderedRing K] in
/-- A rule that was given weighs its probability. -/
theorem value_weight (hG : G.Compiled solver) (hexact : G.algebra.IsExact value) {r : Rule K W}
    (hr : r ∈ G.rules) : value r.weight = r.probability := by
  have hpos := (hG.probability_mem_unit hr).1
  obtain ⟨_, _, _, rfl⟩ := hG.given r hr
  exact hexact.ofProbability hpos

/-- The best score of a production is positive and at most one. -/
theorem value_best_mem_unit (hG : G.Compiled solver) (hexact : G.algebra.IsExact value)
    {x : Category} {q : Production K W} (hq : q ∈ G.productionsOf x) :
    0 < value q.best ∧ value q.best ≤ 1 := by
  obtain ⟨_, r, hexp⟩ := hG.mem_productionsOf.mp hq
  have hr := hG.probability_mem_unit hexp.mem
  cases hexp.expands with
  | whole =>
    rw [Production.ofRule, value_weight hG hexact hexp.mem]
    exact hr
  | variant ho =>
    obtain ⟨hpos, hle⟩ := prod_omitted_mem_unit hG ho
    rw [value_variant hG hexact hexp.mem ho]
    exact ⟨mul_pos hr.1 hpos, mul_le_one₀ hr.2 hpos.le hle⟩

/-- No attainable score stands for a negative number. -/
theorem value_nonneg (hG : G.Compiled solver) (hexact : G.algebra.IsExact value) {w : W}
    (h : Attainable G w) : 0 ≤ value w := by
  induction h with
  | one =>
    rw [hexact.one]
    exact zero_le_one
  | production hq => exact (value_best_mem_unit hG hexact hq).1.le
  | empty hx =>
    have hpos := bestEmptyProbability_pos hG hx
    rw [hexact.ofProbability hpos]
    exact hpos.le
  | mul _ _ iha ihb =>
    rw [hexact.mul]
    exact mul_nonneg iha ihb

/-- **Exact scores never rise along a rule.** -/
theorem neverRaises_of_isExact (hG : G.Compiled solver) (hexact : G.algebra.IsExact value) :
    NeverRaises G := by
  refine ⟨⟨fun {a b} _ _ hab => ?_, fun {a b c} _ _ _ hab hbc => ?_⟩, fun {x q a} hq ha => ?_⟩
  · unfold Worse at hab ⊢
    rw [hexact.lt] at hab ⊢
    exact lt_asymm hab
  · unfold Worse at hab hbc ⊢
    rw [hexact.lt, not_lt] at hab hbc ⊢
    exact hbc.trans hab
  · unfold Worse
    rw [hexact.lt, hexact.mul, not_lt]
    exact mul_le_of_le_one_left (value_nonneg hG hexact ha) (value_best_mem_unit hG hexact hq).2

end Exact

end Parser

/-! ## A small grammar -/

/-- Linear algebra over the rational numbers. The greatest sum of a row stands for the radius, which
it bounds. -/
def rationalSolver : Solver ℚ where
  inverse := Elimination.inverse
  radius m := Probability.greatest
    ((List.finRange _).map fun i => ((List.finRange _).map (m.entry i)).sum)

/-- A category that can be empty, and a unit rule that leads back to its own category. -/
def smallBuilder : Except (GrammarError ℚ) (Builder ℚ ℚ) := do
  let b := Builder.empty (linearScores ℚ) false
  let b ← b.add ⟨.plain, .name "S", [.name "A", .name "a"]⟩ (1 / 2)
  let b ← b.add ⟨.plain, .name "S", [.name "S"]⟩ (1 / 4)
  let b ← b.add ⟨.plain, .name "A", []⟩ (1 / 2)
  b.add ⟨.plain, .name "A", [.name "a"]⟩ (1 / 2)

/-- The grammar of these rules. -/
def smallGrammar : Except (GrammarError ℚ) (Grammar ℚ ℚ) := do
  (← smallBuilder).build rationalSolver

theorem built_smallGrammar {G : Grammar ℚ ℚ} (h : smallGrammar = .ok G) :
    G.Built rationalSolver (linearScores ℚ) := by
  obtain ⟨b, hb, hG⟩ := bind_eq_ok.mp h
  obtain ⟨b₁, h₁, hb⟩ := bind_eq_ok.mp hb
  obtain ⟨b₂, h₂, hb⟩ := bind_eq_ok.mp hb
  obtain ⟨b₃, h₃, hb⟩ := bind_eq_ok.mp hb
  exact ⟨b, .add (.add (.add (.add (.empty false) h₁) h₂) h₃) hb, hG⟩

/-- Whatever can be checked of the small grammar and its chart for some tokens holds of them. -/
theorem exists_smallChart (tokens : List Payload) (check : Grammar ℚ ℚ → Chart ℚ ℚ → Bool)
    (h : (smallGrammar.toOption.any fun G =>
      (parse G (.name "S") tokens).toOption.any (check G)) = true) :
    ∃ G chart, smallGrammar = .ok G ∧ parse G (.name "S") tokens = .ok chart ∧
      check G chart = true := by
  obtain ⟨G, hG, h⟩ := any_toOption.mp h
  obtain ⟨chart, hchart, hcheck⟩ := any_toOption.mp h
  exact ⟨G, chart, hG, hchart, hcheck⟩

end StochasticGrammar
