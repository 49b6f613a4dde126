import StochasticGrammar.Proofs.Conservation

/-!
# Prefix probabilities

Forward scores are never negative, so the sentence probability, a part of what a token has brought,
is never above the prefix probability. In a proper grammar without empty rules they are conserved as
well: a token takes at most what was there, and prefix probabilities fall from one on. With empty
rules this fails, since what is left of a rule behind a prefix counts with probability one, although
its symbols are expanded with less.

> `Run.forwardAt_nonneg`: no forward score is negative.

> `Fed.sentenceProbability?_le`, `Fed.prefixScore_step_le`: what follows for a parser.
-/

namespace StochasticGrammar.Parser

open scoped Classical
open Grammar

variable {W : Type} [DecidableEq W] {solver : Solver ℝ} {G : Grammar ℝ W} {goal : Category}
  {value : W → ℝ} {tokens : List Payload} {columns : List (Column ℝ W)}

/-! ## Forward scores are not negative -/

theorem cornerOf_nonneg (hG : G.Compiled solver) (hsolver : solver.IsExact)
    (hvalue : G.algebra.IsAdditive value) (s : State ℝ W) {x : Category} (hx : x ∈ G.names) :
    0 ≤ cornerOf G value s x := by
  by_cases hname : ∃ z, s.next? = some z ∧ z ∈ G.names
  · obtain ⟨z, hnext, hz⟩ := hname
    rw [cornerOf_of_next hnext]
    exact (leftCornerScore_eq hG hsolver hvalue hz hx).1
  · rw [cornerOf_of_not_mem hG hvalue fun z hz hmem => hname ⟨z, hz, hmem⟩]

omit [DecidableEq W] in
/-- The rule for the empty sentence has a probability. -/
theorem value_weight_of_emptyStart (hvalue : G.algebra.IsAdditive value) {q : Production ℝ W}
    (hq : emptyStart G goal = .ok q) : 0 ≤ value q.rule.weight ∧ value q.rule.weight ≤ 1 := by
  obtain ⟨_, hpos, hle⟩ := isProper_of_emptyStart hq
  have hweight : value q.rule.weight = G.emptyProbability goal := by
    rw [emptyStart_eq_ok hq]
    exact hvalue.ofProbability hpos
  exact ⟨hweight.symm ▸ hpos.le, hweight.symm ▸ hle⟩

/-- No inner score is negative. -/
theorem Run.innerAt_nonneg (hG : G.Compiled solver) (hsolver : solver.IsExact)
    (hvalue : G.algebra.IsAdditive value) (h : Run G goal tokens columns) (k : Nat) {s : State ℝ W}
    (hs : ChartRule G goal s.rule) : 0 ≤ innerAt G value columns k s := by
  by_cases hmem : s ∈ statesAt columns k
  · have hsat := h.saturated hG
    have hfits := hsat.fits hmem
    have hk := h.le_length_of_mem hmem
    rcases hsat.rule_cases hmem with hrule | ⟨rfl, _, q, hq, rfl⟩
    · obtain ⟨i, n, position, r⟩ := s
      obtain rfl : position = k := hfits.position
      exact (h.inner_eq_mass hG hsolver hvalue hk hfits.origin_le hfits.dot_le hrule
        (hsat.predicted_mem hG hmem)).1
    · unfold innerAt
      rw [h.inner_predicted hG hvalue hmem]
      exact (value_weight_of_emptyStart hvalue hq).1
  · exact (amount_of_not_mem hG hvalue (isScore_inner _) (h.pastShaped hG k) hs hmem).ge

/-- A state that has found something has no negative forward score, if what it was predicted with is
none. -/
theorem Run.forwardAt_nonneg_of_origin (hG : G.Compiled solver) (hsolver : solver.IsExact)
    (hvalue : G.algebra.IsAdditive value) (h : Run G goal tokens columns) {k : Nat}
    {s : State ℝ W} (hs : s ∈ stateSet columns k)
    (hrule : s.rule = startRule G.algebra goal ∨ G.Uses s.rule)
    (horigin : ∀ t ∈ stateSet columns s.origin, 0 ≤ forwardAt G value columns s.origin t) :
    0 ≤ forwardAt G value columns k s := by
  have hfits := h.fits_of_mem hG hs
  obtain ⟨i, n, position, r⟩ := s
  obtain rfl : position = k := hfits.position
  have hchart : ChartRule G goal r := hfits.rule
  refine nonneg_of_mul_nonneg_left ?_ (value_weight_pos hG hvalue hrule)
  show 0 ≤ amount G.algebra value Cell.forward (pastColumn columns position) ⟨i, n, position, r⟩
    * value r.weight
  rw [h.lockstep hG hvalue i n position hchart]
  by_cases hmem : State.predicted r i ∈ statesAt columns i
  · refine mul_nonneg (horigin _ (List.mem_toFinset.mpr hmem)) ?_
    exact h.innerAt_nonneg hG hsolver hvalue position hchart
  · rw [amount_of_not_mem hG hvalue (isScore_forward _) (h.pastShaped hG i) (s := .predicted r i)
      hchart hmem, zero_mul]

/-- The kernel of the first column holds the start rule, and the one for the empty sentence. -/
theorem Run.seed_cases (hG : G.Compiled solver) (hvalue : G.algebra.IsAdditive value)
    (h : Run G goal tokens columns) {t : State ℝ W} (ht : t ∈ kernel columns 0) :
    t = .predicted (startRule G.algebra goal) 0 ∧ forwardAt G value columns 0 t = 1 ∨
      ∃ q, emptyStart G goal = .ok q ∧ t = .predicted q.rule 0 ∧
        forwardAt G value columns 0 t = value q.rule.weight ∧
        innerAt G value columns 0 t = value q.rule.weight := by
  obtain ⟨base, hseeded, hpredicted⟩ := h.seeded hG
  rw [hpredicted.kernel_eq hG fun c hc hno => hno.2 (hseeded.lhs_eq hc), List.mem_toFinset] at ht
  obtain ⟨c, hc, rfl⟩ := mem_states.mp ht
  have hforward : forwardAt G value columns 0 c.state = value c.forward :=
    amount_of_mem hpredicted.shaped (hpredicted.keeps c hc)
  have hinner : innerAt G value columns 0 c.state = value c.inner :=
    amount_of_mem hpredicted.shaped (hpredicted.keeps c hc)
  rw [hforward, hinner]
  rcases (hseeded.mem c).mp hc with rfl | ⟨_, q, hq, rfl⟩
  · exact .inl ⟨rfl, (hvalue.value_zero_add _).trans hvalue.one⟩
  · exact .inr ⟨q, hq, rfl, hvalue.value_zero_add _, hvalue.value_zero_add _⟩

/-- **No forward score is negative.** -/
theorem Run.forwardAt_nonneg (hG : G.Compiled solver) (hsolver : solver.IsExact)
    (hvalue : G.algebra.IsAdditive value) (h : Run G goal tokens columns) {k : Nat} {s : State ℝ W}
    (hs : s ∈ stateSet columns k) : 0 ≤ forwardAt G value columns k s := by
  induction k using Nat.strong_induction_on generalizing s with
  | _ k earlier =>
    -- first the kernel, whose states start earlier, and then what is predicted from it
    have hkernel : ∀ t ∈ kernel columns k, 0 ≤ forwardAt G value columns k t := by
      intro t ht
      obtain ⟨hmem, hkernel⟩ := Finset.mem_filter.mp ht
      have hfits := h.fits_of_mem hG hmem
      rcases Nat.eq_zero_or_pos t.dot with hdot | hdot
      · have hlhs : t.rule.lhs = .start := not_not.mp fun hlhs => hkernel ⟨hdot, hlhs⟩
        obtain rfl : 0 = k := (hfits.start_origin hlhs).symm.trans (hfits.origin_eq hdot)
        rcases h.seed_cases hG hvalue ht with ⟨_, hone⟩ | ⟨q, hq, _, hweight, _⟩
        · rw [hone]
          exact zero_le_one
        · rw [hweight]
          exact (value_weight_of_emptyStart hvalue hq).1
      · refine h.forwardAt_nonneg_of_origin hG hsolver hvalue hmem ?_
          fun u hu => earlier _ (hfits.origin_lt hdot) hu
        refine ((h.saturated hG).rule_cases (List.mem_toFinset.mp hmem)).resolve_right ?_
        rintro ⟨_, _, q, _, rfl⟩
        exact Nat.lt_irrefl 0 hdot
    by_cases hs' : IsKernel s
    · exact hkernel s (Finset.mem_filter.mpr ⟨hs, hs'⟩)
    · obtain ⟨hr, heq⟩ := h.eq_predicted hG hs hs'
      have huses := hG.mem_usedRules.mp hr
      rw [heq, forwardAt_predicted hG hvalue h k huses]
      refine mul_nonneg (Finset.sum_nonneg fun t ht => mul_nonneg (hkernel t ht) ?_)
        (hG.probability_pos_of_uses huses).le
      exact cornerOf_nonneg hG hsolver hvalue t (hG.mem_names_of_uses huses)

/-! ## Prefixes -/

section Prefix

variable {p : Parser ℝ W} (hG : G.Compiled solver) (hsolver : solver.IsExact)
  (hvalue : G.algebra.IsAdditive value)
include hG hsolver hvalue

omit hsolver in
/-- Before the first token, only the empty sentence is complete. -/
theorem Run.sum_final_zero (h : Run G goal tokens columns) :
    (∑ t ∈ kernel columns 0, if t.next? = none ∧ t.rule.lhs = .start then
      innerAt G value columns 0 t else 0) ≤ 1 := by
  by_cases hempty : ∃ q, emptyStart G goal = .ok q ∧ .predicted q.rule 0 ∈ kernel columns 0
  · obtain ⟨q, hq, hmem⟩ := hempty
    rw [Finset.sum_eq_single_of_mem _ hmem]
    · rcases h.seed_cases hG hvalue hmem with ⟨heq, _⟩ | ⟨q', hq', _, _, hinner⟩
      · rw [heq, if_neg fun hstart => Option.some_ne_none goal hstart.1]
        exact zero_le_one
      · rw [hinner]
        split
        · exact (value_weight_of_emptyStart hvalue hq').2
        · exact zero_le_one
    · intro t ht hne
      rcases h.seed_cases hG hvalue ht with ⟨rfl, _⟩ | ⟨q', hq', rfl, _⟩
      · exact if_neg fun hstart => Option.some_ne_none goal hstart.1
      · rw [hq] at hq'
        cases hq'
        exact absurd rfl hne
  · rw [Finset.sum_eq_zero]
    · exact zero_le_one
    · intro t ht
      rcases h.seed_cases hG hvalue ht with ⟨rfl, _⟩ | ⟨q, hq, rfl, _⟩
      · exact if_neg fun hstart => Option.some_ne_none goal hstart.1
      · exact absurd ⟨q, hq, ht⟩ hempty

/-- Behind a token, a complete state of the start symbol has the same forward and inner score, which
is a part of the forward score of what took the token. -/
theorem Run.sum_final_succ (h : Run G goal tokens columns) {k : Nat} {token : Payload}
    (hk : tokens[k]? = some token) :
    (∑ t ∈ kernel columns (k + 1), if t.next? = none ∧ t.rule.lhs = .start then
        innerAt G value columns (k + 1) t else 0)
      ≤ ∑ s ∈ stateSet columns k, if Takes G token s then forwardAt G value columns k s else 0 := by
  have hfinal : ∀ t ∈ kernel columns (k + 1),
      (if t.next? = none ∧ t.rule.lhs = .start then innerAt G value columns (k + 1) t else 0)
        = if t.next? = none ∧ t.rule.lhs = .start then
            forwardAt G value columns (k + 1) t else 0 := by
    intro t ht
    split
    · rename_i hstart
      have hmem := List.mem_toFinset.mp (Finset.mem_filter.mp ht).1
      obtain ⟨_, rfl⟩ := ((h.saturated hG).final_cases hG hmem
        ((State.isComplete_iff_next?_eq_none t).mpr hstart.1) hstart.2).resolve_right
          fun hzero => Nat.succ_ne_zero k hzero.1
      have hlockstep := h.lockstep hG hvalue 0 1 (k + 1)
        (.start : ChartRule G goal (startRule G.algebra goal))
      have hone : value (startRule G.algebra goal).weight = 1 := hvalue.one
      have hseed := h.forwardAt_start hG hvalue
      unfold forwardAt at hseed
      rw [hone, mul_one, hseed, one_mul] at hlockstep
      exact hlockstep.symm
    · rfl
  -- what is open besides is not negative
  rw [← h.sum_open hG hsolver hvalue hk, Finset.sum_congr rfl hfinal]
  refine le_add_of_nonneg_left (Finset.sum_nonneg fun t ht => ?_)
  split
  · exact h.forwardAt_nonneg hG hsolver hvalue (Finset.mem_filter.mp ht).1
  · exact le_refl 0

/-- **The sentence probability is a part of the prefix score.** -/
theorem Fed.sentenceProbability?_le (h : Fed G goal tokens p) :
    ∃ total, p.sentenceProbability? = some total ∧ total ≤ value p.prefixScore := by
  have hholds := h.holds
  have hinner : ∀ t ∈ kernel p.chart.columns tokens.length,
      (if t.next? = none ∧ t.rule.lhs = .start then value (p.chart.inner G.algebra t) else 0)
        = if t.next? = none ∧ t.rule.lhs = .start then
            innerAt G value p.chart.columns tokens.length t else 0 := by
    intro t ht
    rw [(hholds.chart_scores hG value (Finset.mem_filter.mp ht).1).2]
  refine ⟨_, h.sentenceProbability?_eq_sum hvalue, ?_⟩
  rw [hholds.sum_finalStates hG]
  refine (Finset.sum_congr rfl hinner).trans_le ?_
  cases h with
  | create h =>
    rw [Fed.prefixScore_of_nil hvalue (.create h)]
    exact hholds.run.sum_final_zero hG hvalue
  | @step before p₀ _ token hfed hstep =>
    have htoken : (before ++ [token])[before.length]? = some token := by simp
    rw [hfed.prefixScore_of_step hG hvalue hstep, List.length_append, List.length_singleton]
    refine (hholds.run.sum_final_succ hG hsolver hvalue htoken).trans_eq ?_
    obtain ⟨hstates, hforward⟩ := forwardAt_of_step G value hstep
      (Nat.le_of_eq hfed.holds.position.symm)
    rw [hstates, hforward]

variable (hfree : G.IsEpsilonFree) (hproper : G.IsProper)
include hfree hproper

/-- A token takes no more than what waits for terminals, which is no more than the prefix score. -/
theorem Fed.prefixScore_step_le (h : Fed G goal tokens p) {token : Payload} {p' : Parser ℝ W}
    (hstep : p.step token = (p', .ok true)) : value p'.prefixScore ≤ value p.prefixScore := by
  have hnonneg : ∀ s ∈ stateSet p.chart.columns tokens.length,
      0 ≤ forwardAt G value p.chart.columns tokens.length s :=
    fun s hs => h.holds.run.forwardAt_nonneg hG hsolver hvalue hs
  rw [h.prefixScore_of_step hG hvalue hstep, ← h.balance hG hsolver hvalue hfree hproper]
  refine le_trans (Finset.sum_le_sum fun s hs => ?_) (le_add_of_nonneg_right
    (Finset.sum_nonneg fun t ht => ?_))
  · split
    · rename_i htakes
      obtain ⟨c, hc, hterm, _⟩ := htakes
      rw [hc, Option.any_some, if_pos hterm]
    · split
      · exact hnonneg s hs
      · exact le_refl 0
  · split
    · exact hnonneg t (Finset.mem_filter.mp ht).1
    · exact le_refl 0

theorem Fed.prefixScore_le_one (h : Fed G goal tokens p) : value p.prefixScore ≤ 1 := by
  induction h with
  | create h => exact (Fed.prefixScore_of_nil hvalue (.create h)).le
  | step hfed hstep ih =>
    exact (hfed.prefixScore_step_le hG hsolver hvalue hfree hproper hstep).trans ih

end Prefix

/-- **Prefix probabilities**, with exact arithmetic: never less than the sentence probability, and,
in a proper grammar without empty rules, at most one and never greater after a token than before
it. -/
theorem prefix_probability_is_bounded {A : ScoreAlgebra ℝ W} (hG : G.Built solver A)
    (hsolver : solver.IsExact) (hvalue : A.IsAdditive value) {p : Parser ℝ W}
    (hfed : Fed G goal tokens p) :
    ∃ begun whole, p.prefixProbability? = some begun ∧ p.sentenceProbability? = some whole ∧
      whole ≤ begun ∧
      (G.IsEpsilonFree → G.IsProper → begun ≤ 1 ∧
        ∀ token p', p.step token = (p', .ok true) →
          ∃ begun', p'.prefixProbability? = some begun' ∧ begun' ≤ begun) := by
  obtain ⟨hcompiled, rfl⟩ := hG.compiled
  have hprefix : ∀ {tokens p}, Fed G goal tokens p →
      p.prefixProbability? = some (value p.prefixScore) := by
    intro tokens p hfed
    unfold prefixProbability?
    rw [hfed.holds.grammar]
    exact hvalue.toProbability _
  obtain ⟨whole, hwhole, hle⟩ := hfed.sentenceProbability?_le hcompiled hsolver hvalue
  refine ⟨_, whole, hprefix hfed, hwhole, hle, fun hfree hproper => ⟨?_, fun token p' hstep => ?_⟩⟩
  · exact hfed.prefixScore_le_one hcompiled hsolver hvalue hfree hproper
  · exact ⟨_, hprefix (.step hfed hstep),
      hfed.prefixScore_step_le hcompiled hsolver hvalue hfree hproper hstep⟩

theorem loop_prefix_probability_is_bounded :
    ∃ G p, loopGrammar = .ok G ∧ Fed G (.name "S") [.text "a"] p ∧
      ∃ begun whole, p.prefixProbability? = some begun ∧ p.sentenceProbability? = some whole ∧
        whole ≤ begun ∧ begun ≤ 1 := by
  obtain ⟨G, hG, hrules⟩ := exists_loopGrammar
  obtain ⟨p, hp, _⟩ := exists_fed_loopGrammar hG hrules
  have hbuilt := built_loopGrammar hG
  obtain ⟨begun, whole, hbegun, hwhole, hle, hbounded⟩ := prefix_probability_is_bounded hbuilt
    isExact_realSolver isAdditive_linearScores hp
  have hone := (hbounded (isEpsilonFree_of_loopRules hrules)
    (isProper_of_loopRules hbuilt.compiled.1 hrules)).1
  exact ⟨G, p, hG, hp, begun, whole, hbegun, hwhole, hle, hone⟩

/-! ## An empty rule -/

/-- A symbol that is there or not, behind a token. -/
def optionalBuilder : Except (GrammarError ℚ) (Builder ℚ ℚ) := do
  let b := Builder.empty (linearScores ℚ) false
  let b ← b.add ⟨.plain, .name "S", [.name "a", .name "B"]⟩ 1
  let b ← b.add ⟨.plain, .name "B", [.name "b"]⟩ (1 / 2)
  b.add ⟨.plain, .name "B", []⟩ (1 / 2)

/-- The grammar of these rules. -/
def optionalGrammar : Except (GrammarError ℚ) (Grammar ℚ ℚ) := do
  (← optionalBuilder).build rationalSolver

set_option maxRecDepth 100000 in
/-- The rules of every category have probabilities that sum up to one, and yet a token that begins
every sentence begins one with a probability above one: the rule counts once as it is, with its
second symbol still to come, and again without it. -/
theorem empty_rule_raises_a_prefix_above_one :
    ∃ G p, optionalGrammar = .ok G ∧ create G (.name "S") = .ok p ∧
      (∀ x ∈ G.names, ((G.sourceRulesOf x).map Rule.probability).sum = 1) ∧
      (p.step (.text "a")).2.toOption = some true ∧
      p.prefixProbability? = some 1 ∧
      (p.step (.text "a")).1.prefixProbability? = some (3 / 2) := by
  have hcheck : (optionalGrammar.toOption.any fun G => (create G (.name "S")).toOption.any fun p =>
      decide ((∀ x ∈ G.names, ((G.sourceRulesOf x).map Rule.probability).sum = 1) ∧
        (p.step (.text "a")).2.toOption = some true ∧
        p.prefixProbability? = some 1 ∧
        (p.step (.text "a")).1.prefixProbability? = some (3 / 2))) = true := by
    decide +kernel
  obtain ⟨G, hG, hcheck⟩ := any_toOption.mp hcheck
  obtain ⟨p, hp, hcheck⟩ := any_toOption.mp hcheck
  exact ⟨G, p, hG, hp, of_decide_eq_true hcheck⟩

end StochasticGrammar.Parser
