import StochasticGrammar.Proofs.Bounded

/-!
# Rounds approach empty probabilities from below

The probabilities of deriving nothing are a solution of polynomial equations, which call for each
other in any way, and the rounds that compute them are cut off. What they have then is an
approximation, and one from below: a round never lowers anything, and none passes a solution of the
equations, not even one with room to spare. The derivations of nothing have such a solution for
their total mass, which so is never exceeded, and where probabilities sum up to one at most, one
itself is a solution.

> `totalMass_eq`: the total mass of the derivations of nothing solves the equations.

> `empty_rounds_approach_from_below`: what the rounds keep, for any rules.
-/

namespace StochasticGrammar.Empty

open scoped ENNReal Classical

/-! ## The equations -/

section Equations

variable {K W : Type} [Field K] [LinearOrder K]

/-- What the equation of a category comes to for some values of all categories: the sum over its
rules whose symbols can all be empty. -/
def emptySum (rules : List (Rule K W)) (value : Category → K) (x : Category) : K :=
  ((rules.filter fun r => r.lhs == x && isCovered (nullable (RuleIndex.ofRules rules)) r).map
    fun r => r.probability * (r.rhs.map value).prod).sum

variable {rules : List (Rule K W)}

/-- A round evaluates the equations. -/
theorem massStep_ofRules (value : Category → K) (x : Category) :
    massStep (RuleIndex.ofRules rules) (nullable (RuleIndex.ofRules rules)) value x
      = if (nullable (RuleIndex.ofRules rules)).contains x then emptySum rules value x else 0 := by
  unfold massStep emptySum
  simp only [Probability.sum_eq, Probability.prod_eq, RuleIndex.rulesOf_ofRules, List.filter_filter,
    Bool.and_comm]

theorem probability_nonneg_of_mem (hrules : ∀ r ∈ rules, 0 < r.probability ∧ r.probability ≤ 1) :
    ∀ x, ∀ r ∈ (RuleIndex.ofRules rules).rulesOf x, 0 ≤ r.probability := by
  intro x r hr
  rw [RuleIndex.rulesOf_ofRules] at hr
  exact (hrules r (List.mem_filter.mp hr).1).1.le

/-- The entries of every table of a round are what their categories have in it. -/
theorem mem_massesAfter {index : RuleIndex K W} {n : Nat} {entry : Category × K}
    (h : entry ∈ massesAfter index (n + 1)) : entry.2 = massAfter index (n + 1) entry.1 := by
  obtain ⟨hafter, hlists⟩ := massAt_massesAfter index n
  have hknown : (nullable index).contains entry.1 = true := by
    rw [← (massAt_massesAfter index (n + 1)).2 entry.1]
    exact List.any_eq_true.mpr ⟨entry.1, List.mem_map_of_mem h, BEq.rfl⟩
  rw [massesAfter_succ, massRound] at h
  obtain ⟨before, _, rfl⟩ := List.mem_map.mp h
  rw [massAfter_succ, massStep, if_pos hknown, hafter]

end Equations

/-! ## Derivations of nothing -/

section Mass

variable {W : Type}

/-- The probability of a derivation of nothing; anything else weighs nothing. -/
noncomputable def emptyMass (rules : List (Rule ℝ W)) (d : Derivation ℝ W) : ℝ≥0∞ :=
  if d.Vanishes rules then ENNReal.ofReal (d.weight Rule.probability) else 0

/-- The mass of all derivations of nothing from a category. -/
noncomputable def totalMass (rules : List (Rule ℝ W)) (x : Category) : ℝ≥0∞ :=
  tsum fun d : Derivation ℝ W => if (d.root == x) = true then emptyMass rules d else 0

/-- The mass of all ways to derive nothing from every symbol of a string. -/
noncomputable def totalMassAll (rules : List (Rule ℝ W)) (symbols : List Category) : ℝ≥0∞ :=
  tsum fun ds : List (Derivation ℝ W) =>
    if List.Forall₂ (fun d c => (d.root == c) = true) ds symbols then
      (ds.map (emptyMass rules)).prod
    else 0

/-- **The symbols of a string vanish independently.** -/
theorem totalMassAll_eq (rules : List (Rule ℝ W)) (symbols : List Category) :
    totalMassAll rules symbols = (symbols.map (totalMass rules)).prod := by
  induction symbols with
  | nil =>
    unfold totalMassAll
    rw [tsum_eq_single []]
    · simp
    · intro ds hds
      rw [if_neg]
      exact fun h => hds (List.forall₂_nil_right_iff.mp h)
  | cons x symbols ih =>
    have hinj : Function.Injective
        fun p : Derivation ℝ W × List (Derivation ℝ W) => p.1 :: p.2 := by
      rintro ⟨d, ds⟩ ⟨d', ds'⟩ heq
      obtain ⟨hd, hds⟩ := List.cons.inj heq
      exact Prod.ext hd hds
    rw [List.map_cons, List.prod_cons, ← ih]
    unfold totalMassAll totalMass
    rw [← hinj.tsum_eq, ENNReal.tsum_prod', ← ENNReal.tsum_mul_right]
    · refine tsum_congr fun d => ?_
      rw [← ENNReal.tsum_mul_left]
      refine tsum_congr fun ds => ?_
      simp only [List.forall₂_cons, List.map_cons, List.prod_cons, ite_and]
      split_ifs <;> simp
    · intro ds hds
      cases ds with
      | nil => simp at hds
      | cons d ds => exact ⟨(d, ds), rfl⟩

variable {rules : List (Rule ℝ W)}

theorem weight_nonneg_of_vanishes (hrules : ∀ r ∈ rules, 0 ≤ r.probability) {d : Derivation ℝ W}
    (h : d.Vanishes rules) : 0 ≤ d.weight Rule.probability := by
  induction h with
  | @node r ds hr _ _ ih =>
    rw [Derivation.weight_node]
    refine mul_nonneg (hrules r hr) (List.prod_nonneg fun w hw => ?_)
    obtain ⟨d, hd, rfl⟩ := List.mem_map.mp hw
    exact ih d hd

/-- The mass of a node is that of its rule times those of its children. -/
theorem emptyMass_node (hrules : ∀ r ∈ rules, 0 ≤ r.probability) (r : Rule ℝ W)
    (ds : List (Derivation ℝ W)) : emptyMass rules (.node r ds)
      = if r ∈ rules ∧ List.Forall₂ (fun d c => (d.root == c) = true) ds r.rhs then
          ENNReal.ofReal r.probability * (ds.map (emptyMass rules)).prod
        else 0 := by
  by_cases hvanishes : (Derivation.node r ds).Vanishes rules
  · rw [emptyMass, if_pos hvanishes]
    cases hvanishes with
    | node hr hroots hds =>
      have hchildren : ds.map (emptyMass rules)
          = ds.map fun d => ENNReal.ofReal (d.weight Rule.probability) :=
        List.map_congr_left fun d hd => if_pos (hds d hd)
      rw [if_pos ⟨hr, hroots⟩, Derivation.weight_node, ENNReal.ofReal_mul (hrules r hr), hchildren,
        Grammar.ofReal_prod_map fun d hd => weight_nonneg_of_vanishes hrules (hds d hd)]
  · rw [emptyMass, if_neg hvanishes]
    split
    · next h =>
      -- the rule is one, so that some child is no derivation of nothing
      obtain ⟨d, hd, hno⟩ : ∃ d ∈ ds, ¬ d.Vanishes rules := by
        by_contra hnone
        push Not at hnone
        exact hvanishes (.node h.1 h.2 hnone)
      have hzero : (0 : ℝ≥0∞) ∈ ds.map (emptyMass rules) :=
        List.mem_map.mpr ⟨d, hd, if_neg hno⟩
      rw [List.prod_eq_zero hzero, mul_zero]
    · rfl

/-- **The total mass of the derivations of nothing solves the equations.** -/
theorem totalMass_eq (hrules : ∀ r ∈ rules, 0 ≤ r.probability) (hnodup : rules.Nodup)
    (x : Category) :
    totalMass rules x = ((rules.filter fun r => r.lhs == x).map fun r =>
      ENNReal.ofReal r.probability * (r.rhs.map (totalMass rules)).prod).sum := by
  have hinj : Function.Injective fun n : Rule ℝ W × List (Derivation ℝ W) =>
      Derivation.node n.1 n.2 := by
    rintro ⟨r, ds⟩ ⟨r', ds'⟩ heq
    cases heq
    rfl
  have hmem : ∀ r, r ∈ (rules.filter fun r => r.lhs == x) ↔ r ∈ rules ∧ (r.lhs == x) = true :=
    fun r => List.mem_filter
  -- a derivation is its rule with its children
  rw [← Grammar.tsum_mem (hnodup.filter _), totalMass, ← hinj.tsum_eq]
  · rw [ENNReal.tsum_prod']
    refine tsum_congr fun r => ?_
    rw [← totalMassAll_eq, totalMassAll, ← ENNReal.tsum_mul_left]
    by_cases hr : r ∈ rules ∧ (r.lhs == x) = true
    · rw [if_pos ((hmem r).mpr hr)]
      refine tsum_congr fun ds => ?_
      rw [Derivation.root_node, if_pos hr.2, emptyMass_node hrules]
      simp only [hr.1, true_and, mul_ite, mul_zero]
    · rw [if_neg fun h => hr ((hmem r).mp h), ENNReal.tsum_eq_zero]
      intro ds
      rw [Derivation.root_node, emptyMass_node hrules]
      split_ifs with hroot hnode
      · exact absurd ⟨hnode.1, hroot⟩ hr
      · rfl
      · rfl
  · -- a leaf is no derivation of nothing
    intro d hd
    cases d with
    | leaf c t =>
      have hleaf : ¬ (Derivation.leaf c t : Derivation ℝ W).Vanishes rules := fun h => nomatch h
      simp [emptyMass, hleaf] at hd
    | node r ds => exact ⟨(r, ds), rfl⟩

/-- **No round exceeds the total mass.** -/
theorem ofReal_massAfter_le (hrules : ∀ r ∈ rules, 0 < r.probability ∧ r.probability ≤ 1)
    (hnodup : rules.Nodup) (n : Nat) (x : Category) :
    ENNReal.ofReal (massAfter (RuleIndex.ofRules rules) n x) ≤ totalMass rules x := by
  have hpos := probability_nonneg_of_mem hrules
  induction n generalizing x with
  | zero => exact (ENNReal.ofReal_zero).trans_le zero_le
  | succ n ih =>
    have hnonneg := fun y => (massAfter_le_succ hpos n y).1
    have hprod : ∀ r : Rule ℝ W,
        0 ≤ (r.rhs.map (massAfter (RuleIndex.ofRules rules) n)).prod := by
      intro r
      refine List.prod_nonneg fun w hw => ?_
      obtain ⟨y, _, rfl⟩ := List.mem_map.mp hw
      exact hnonneg y
    have hterm : ∀ r ∈ (RuleIndex.ofRules rules).rulesOf x,
        0 ≤ r.probability * (r.rhs.map (massAfter (RuleIndex.ofRules rules) n)).prod :=
      fun r hr => mul_nonneg (hpos x r hr) (hprod r)
    rw [massAfter_succ, totalMass_eq (fun r hr => (hrules r hr).1.le) hnodup]
    refine (ENNReal.ofReal_le_ofReal
      (massStep_le hpos (fun y => ⟨hnonneg y, le_refl _⟩) x).2.2).trans ?_
    rw [Grammar.ofReal_sum_map hterm, RuleIndex.rulesOf_ofRules]
    refine List.sum_le_sum fun r hr => ?_
    have hr : r ∈ (RuleIndex.ofRules rules).rulesOf x := by rwa [RuleIndex.rulesOf_ofRules]
    rw [ENNReal.ofReal_mul (hpos x r hr), Grammar.ofReal_prod_map fun y _ => hnonneg y]
    gcongr
    exact List.prod_map_le_prod_map₀ _ _ (fun _ _ => zero_le) fun y _ => ih y

/-! ## All rounds -/

/-- **Rounds approach empty probabilities from below.** The rounds that compute how probable it is
to derive nothing, for any rules with probabilities up to one. No value is negative or falls, and
none exceeds what solves the equations or leaves room in them. What is returned is a round, and not
above the total mass of the derivations of nothing, if no rule is listed twice. If the probabilities
of every category sum up to one at most, all values stay at one at most, and none is refused for its
size. -/
theorem empty_rounds_approach_from_below
    (hrules : ∀ r ∈ rules, 0 < r.probability ∧ r.probability ≤ 1) :
    (∀ n x, 0 ≤ massAt (massesAfter (RuleIndex.ofRules rules) n) x ∧
      massAt (massesAfter (RuleIndex.ofRules rules) n) x
        ≤ massAt (massesAfter (RuleIndex.ofRules rules) (n + 1)) x) ∧
    (∀ e : Category → ℝ, (∀ x, 0 ≤ e x) →
      (∀ x, (nullable (RuleIndex.ofRules rules)).contains x = true → emptySum rules e x ≤ e x) →
      ∀ n x, massAt (massesAfter (RuleIndex.ofRules rules) n) x ≤ e x) ∧
    (∀ e, masses (RuleIndex.ofRules rules) (nullable (RuleIndex.ofRules rules)) = .ok e →
      (∃ n, e = massesAfter (RuleIndex.ofRules rules) n) ∧
      (rules.Nodup → ∀ x, ENNReal.ofReal (massAt e x) ≤ totalMass rules x)) ∧
    ((∀ x, ((rules.filter fun r => r.lhs == x).map Rule.probability).sum ≤ 1) →
      (∀ n x, massAt (massesAfter (RuleIndex.ofRules rules) n) x ≤ 1) ∧
      ∀ x p, masses (RuleIndex.ofRules rules) (nullable (RuleIndex.ofRules rules))
        ≠ .error (.excessive x p)) := by
  have hpos := probability_nonneg_of_mem hrules
  have hafter : ∀ n x, massAt (massesAfter (RuleIndex.ofRules rules) n) x
      = massAfter (RuleIndex.ofRules rules) n x := by
    intro n x
    rw [(massAt_massesAfter (RuleIndex.ofRules rules) n).1]
  simp only [hafter]
  refine ⟨massAfter_le_succ hpos, fun e he hsolves => ?_, fun e hmasses => ?_, fun hsum => ?_⟩
  · refine massAfter_le_of_closed hpos he fun x => ?_
    rw [massStep_ofRules]
    split
    · next hknown => exact hsolves x hknown
    · exact he x
  · obtain ⟨k, rfl, _⟩ := masses_eq_ok hmasses
    refine ⟨⟨k + 1, rfl⟩, fun hnodup x => ?_⟩
    rw [hafter]
    exact ofReal_massAfter_le hrules hnodup (k + 1) x
  · have hone := massAfter_le_one hpos fun x => by
      rw [RuleIndex.rulesOf_ofRules]
      exact hsum x
    refine ⟨hone, fun x p hexcessive => ?_⟩
    obtain ⟨k, hmem, hlarge⟩ := masses_eq_excessive hexcessive
    have hle := hone (k + 1) x
    rw [← mem_massesAfter hmem] at hle
    norm_num at hlarge
    linarith

end Mass

/-! ## A category that splits -/

/-- A category that is empty with probability `p`, and otherwise splits into two of its kind. -/
def splittingRules (p : ℝ) : List (Rule ℝ ℝ) :=
  [.given ⟨⟨.plain, .name "S", []⟩, p, p, [], 0⟩,
    .given ⟨⟨.plain, .name "S", [.name "S", .name "S"]⟩, 1 - p, 1 - p, [], 0⟩]

/-- The equation of the category. It is solved by one and by the odds of `p`. -/
def splittingStep (p v : ℝ) : ℝ :=
  p + (1 - p) * (v * v)

/-- Every round evaluates the equation once. -/
theorem massesAfter_splittingRules (p : ℝ) (n : Nat) :
    massesAfter (RuleIndex.ofRules (splittingRules p)) n
      = [(.name "S", (splittingStep p)^[n] 0)] := by
  induction n with
  | zero => rfl
  | succ n ih =>
    rw [massesAfter_succ, ih, Function.iterate_succ_apply']
    generalize (splittingStep p)^[n] 0 = v
    show [((.name "S" : Category), Probability.sum [p * Probability.prod [],
      (1 - p) * Probability.prod [v, v]])] = _
    simp [Probability.sum_eq, Probability.prod_eq, splittingStep]

/-- Below its lower solution `q` the equation pulls values together. -/
theorem splittingStep_iterate {p q : ℝ} (hp : 0 ≤ p) (hp' : p ≤ 1) (hq : 0 ≤ q)
    (hsolves : (1 - p) * q = p) (n : Nat) :
    0 ≤ (splittingStep p)^[n] 0 ∧ (splittingStep p)^[n] 0 ≤ q ∧
      |(splittingStep p)^[n + 1] 0 - (splittingStep p)^[n] 0| ≤ (p + p) ^ n := by
  have hrest : 0 ≤ 1 - p := sub_nonneg.mpr hp'
  have hbounds : ∀ n, 0 ≤ (splittingStep p)^[n] 0 ∧ (splittingStep p)^[n] 0 ≤ q := by
    intro n
    induction n with
    | zero => exact ⟨le_refl 0, hq⟩
    | succ n ih =>
      rw [Function.iterate_succ_apply', splittingStep]
      generalize (splittingStep p)^[n] 0 = v at ih
      refine ⟨add_nonneg hp (mul_nonneg hrest (mul_self_nonneg v)), ?_⟩
      calc p + (1 - p) * (v * v)
          ≤ p + (1 - p) * (q * q) :=
            add_le_add_right (mul_le_mul_of_nonneg_left (mul_self_le_mul_self ih.1 ih.2) hrest) p
        _ = p + p * q := by rw [← mul_assoc, hsolves]
        _ = q := by linear_combination -hsolves
  refine ⟨(hbounds n).1, (hbounds n).2, ?_⟩
  induction n with
  | zero =>
    show |p + (1 - p) * (0 * 0) - 0| ≤ 1
    rw [mul_zero, mul_zero, add_zero, sub_zero, abs_of_nonneg hp]
    exact hp'
  | succ n ih =>
    have hpull : ∀ {v}, v ≤ q → (1 - p) * v ≤ p := fun hv =>
      (mul_le_mul_of_nonneg_left hv hrest).trans_eq hsolves
    have hfactor : (splittingStep p)^[n + 1 + 1] 0 - (splittingStep p)^[n + 1] 0
        = ((1 - p) * (splittingStep p)^[n + 1] 0 + (1 - p) * (splittingStep p)^[n] 0)
          * ((splittingStep p)^[n + 1] 0 - (splittingStep p)^[n] 0) := by
      rw [Function.iterate_succ_apply' _ (n + 1), Function.iterate_succ_apply' _ n]
      simp only [splittingStep]
      ring
    have hle : |(1 - p) * (splittingStep p)^[n + 1] 0 + (1 - p) * (splittingStep p)^[n] 0|
        ≤ p + p := by
      rw [abs_of_nonneg (add_nonneg (mul_nonneg hrest (hbounds (n + 1)).1)
        (mul_nonneg hrest (hbounds n).1))]
      exact add_le_add (hpull (hbounds (n + 1)).2) (hpull (hbounds n).2)
    rw [hfactor, abs_mul, pow_succ, mul_comm]
    exact mul_le_mul ih hle (abs_nonneg _) (pow_nonneg (add_nonneg hp hp) n)

/-- The rounds change less and less, unless `p` is one half or more. -/
theorem change_splittingRules_le {p q : ℝ} (hp : 0 ≤ p) (hp' : p ≤ 1) (hq : 0 ≤ q)
    (hsolves : (1 - p) * q = p) (n : Nat) :
    change (massesAfter (RuleIndex.ofRules (splittingRules p)) n)
      (massesAfter (RuleIndex.ofRules (splittingRules p)) (n + 1)) ≤ (p + p) ^ n := by
  rw [massesAfter_splittingRules, massesAfter_splittingRules]
  refine (Probability.dist_eq _ _).trans_le ?_
  exact (splittingStep_iterate hp hp' hq hsolves n).2.2

/-- The rounds do not run out, and no round is above one half, although the probabilities of the
category sum up to one. -/
theorem splitting_rounds_approach_from_below :
    (∀ n x, massAt (massesAfter (RuleIndex.ofRules (splittingRules (1 / 3))) n) x
        ≤ massAt (massesAfter (RuleIndex.ofRules (splittingRules (1 / 3))) (n + 1)) x ∧
      massAt (massesAfter (RuleIndex.ofRules (splittingRules (1 / 3))) n) x ≤ 1 / 2) ∧
    ∃ e, masses (RuleIndex.ofRules (splittingRules (1 / 3)))
        (nullable (RuleIndex.ofRules (splittingRules (1 / 3)))) = .ok e ∧
      massAt e (.name "S") ≤ 1 / 2 ∧
      ENNReal.ofReal (massAt e (.name "S")) ≤ totalMass (splittingRules (1 / 3)) (.name "S") := by
  have hrules : ∀ r ∈ splittingRules (1 / 3), 0 < r.probability ∧ r.probability ≤ 1 := by
    refine List.forall_mem_cons.mpr ⟨?_, List.forall_mem_singleton.mpr ?_⟩
    · show 0 < (1 / 3 : ℝ) ∧ (1 / 3 : ℝ) ≤ 1
      norm_num
    · show 0 < (1 - 1 / 3 : ℝ) ∧ (1 - 1 / 3 : ℝ) ≤ 1
      norm_num
  have hnodup : (splittingRules (1 / 3)).Nodup := by
    simp [splittingRules]
  have hsum : ∀ x, (((splittingRules (1 / 3)).filter fun r => r.lhs == x).map
      Rule.probability).sum ≤ 1 := by
    intro x
    have hnonneg : ∀ w ∈ (splittingRules (1 / 3)).map Rule.probability, 0 ≤ w := by
      intro w hw
      obtain ⟨r, hr, rfl⟩ := List.mem_map.mp hw
      exact (hrules r hr).1.le
    refine ((List.filter_sublist.map _).sum_le_sum hnonneg).trans ?_
    show (1 / 3 : ℝ) + (1 - 1 / 3 + 0) ≤ 1
    norm_num
  obtain ⟨hrise, hclosed, hreturned, hsubproper⟩ := empty_rounds_approach_from_below hrules
  have hhalf := hclosed (fun _ => 1 / 2) (fun _ => by norm_num) fun x hx => by
    rw [show nullable (RuleIndex.ofRules (splittingRules (1 / 3))) = [.name "S"] from rfl,
      List.contains_cons, List.contains_nil, Bool.or_false] at hx
    obtain rfl : Category.name "S" = x := Category.eq_of_beq rfl (BEq.symm hx)
    show ([(1 / 3 : ℝ) * 1, (1 - 1 / 3) * (1 / 2 * (1 / 2 * 1))] : List ℝ).sum ≤ 1 / 2
    norm_num
  have hsmall : change (massesAfter (RuleIndex.ofRules (splittingRules (1 / 3))) 100)
      (massesAfter (RuleIndex.ofRules (splittingRules (1 / 3))) (100 + 1)) ≤ 1e-12 :=
    (change_splittingRules_le (q := 1 / 2) (by norm_num) (by norm_num) (by norm_num) (by norm_num)
      100).trans (by norm_num)
  cases hmasses : masses (RuleIndex.ofRules (splittingRules (1 / 3)))
      (nullable (RuleIndex.ofRules (splittingRules (1 / 3)))) with
  | ok e =>
    obtain ⟨⟨n, rfl⟩, htotal⟩ := hreturned e hmasses
    exact ⟨fun n x => ⟨(hrise n x).2, hhalf n x⟩, _, rfl, hhalf n _, htotal hnodup _⟩
  | error err =>
    cases err with
    | unsettled => exact absurd hmasses (masses_ne_unsettled (by decide) hsmall)
    | excessive x p => exact absurd hmasses ((hsubproper hsum).2 x p)

end StochasticGrammar.Empty
