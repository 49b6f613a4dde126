import StochasticGrammar.Proofs.CornerRefusal
import StochasticGrammar.Proofs.EmptyBounds
import StochasticGrammar.Proofs.PlainSteps
import StochasticGrammar.Proofs.Safety

/-!
# Best scores are parts of inner scores

Best scores are passed from phrase to phrase, one unit rule after the other, while inner scores jump
over all chains of unit rules at once. In exact arithmetic the one never exceeds the other, whatever
cycles the unit rules have: what a best derivation moved over is among the complete states that the
inner score is summed over when its chains are put back into single steps, and no other summand is
negative.

What a rule leaves out counts in both, in the one with the best way to be empty and in the other
with all of them together. So it is asked that the first be not above the second, which would go
without saying if the latter were not computed in rounds that are cut off.

> `Compiled.bestEmptyIsPart`: which grammars meet what is asked.

> `Reads.value_le_inner`: the score of a state is not above its inner score.

> `best_scores_are_parts_of_inner_scores`: the same for charts, and for the best parse.

Two grammars show that both ways to meet what is asked are open: one without empty rules but with a
cycle of unit rules, and one with an empty rule that ends a right side.
-/

namespace StochasticGrammar

open scoped Classical

variable {W : Type} [DecidableEq W] {solver : Solver ℝ} {G : Grammar ℝ W} {goal : Category}
  {value : W → ℝ} {tokens : List Payload} {columns : List (Column ℝ W)}

namespace Grammar

/-- The best way to be empty is not more probable than all ways together. -/
def BestEmptyIsPart (G : Grammar ℝ W) : Prop :=
  ∀ x, G.isNullable x = true → G.bestEmptyProbability x ≤ G.emptyProbability x

/-- **It is so unless the best way is hardly probable**: what the rounds missed is no more than
that. -/
theorem Compiled.bestEmptyIsPart (hG : G.Compiled solver)
    (hlarge : ∀ x, G.isNullable x = true → 1e-12 < G.bestEmptyProbability x) :
    G.BestEmptyIsPart := by
  intro x hx
  obtain ⟨d, hd, hroot, _⟩ := Parser.exists_isEmptyBest hG hx
  have hweight := Parser.weight_le_max hG (hd.isSourceParse hG) hd.tokens_eq
  rw [Parser.weight_of_isEmptyBest hG hd, hroot] at hweight
  exact (le_max_iff.mp hweight).resolve_right (not_le.mpr (hlarge x hx))

/-- Without empty rules there is nothing to compare. -/
theorem IsEpsilonFree.bestEmptyIsPart (hfree : G.IsEpsilonFree) (hG : G.Compiled solver) :
    G.BestEmptyIsPart := by
  intro x hx
  rw [hfree.isNullable_eq hG x] at hx
  cases hx

end Grammar

namespace Parser

open Grammar

/-! ## What rules begin with -/

/-- A production is not scored above the weight of its rule. -/
theorem value_best_le_weight (hG : G.Compiled solver) (hvalue : G.algebra.IsAdditive value)
    (hpart : G.BestEmptyIsPart) {x : Category} {q : Production ℝ W} (hq : q ∈ G.productionsOf x) :
    value q.best ≤ value q.rule.weight := by
  rw [value_weight_of_uses hG hvalue ⟨x, q, hq, rfl⟩]
  obtain ⟨_, r, hexp⟩ := hG.mem_productionsOf.mp hq
  cases hexp.expands with
  | whole => exact (value_weight hG hvalue.toIsExact hexp.mem).le
  | @variant o ho =>
    rw [value_variant hG hvalue.toIsExact hexp.mem ho]
    show _ ≤ r.probability * Probability.prod (o.map fun place => G.emptyProbability place.1)
    rw [Probability.prod_eq]
    refine mul_le_mul_of_nonneg_left ?_ (hG.probability_mem_unit hexp.mem).1.le
    refine List.prod_map_le_prod_map₀ _ _ (fun place hplace => ?_) fun place hplace => ?_
    · exact (bestEmptyProbability_pos hG (Omission.getElem?_of_mem_omission ho hplace).2).le
    · exact hpart _ (Omission.getElem?_of_mem_omission ho hplace).2

/-- What a rule begins with is not above its weight. -/
theorem Begins.value_le_weight (hG : G.Compiled solver) (hvalue : G.algebra.IsAdditive value)
    (hpart : G.BestEmptyIsPart) {r : Rule ℝ W} {w : W} (h : Begins G goal r w) :
    value w ≤ value r.weight := by
  cases h with
  | start => exact le_refl _
  | empty hnull hq =>
    have hproper := isProper_of_emptyStart hq
    rw [emptyStart_eq_ok hq]
    show value (G.algebra.ofProbability _) ≤ value (G.algebra.ofProbability _)
    rw [hvalue.ofProbability (bestEmptyProbability_pos hG hnull), hvalue.ofProbability hproper.2.1]
    exact hpart goal hnull
  | used hq => exact value_best_le_weight hG hvalue hpart hq

/-! ## Along a best derivation -/

/-- What moves over a token keeps its inner score. -/
theorem Run.inner_advance_token (hG : G.Compiled solver) (hvalue : G.algebra.IsAdditive value)
    (h : Run G goal tokens columns) {k : Nat} {s : State ℝ W} (hs : s ∈ statesAt columns k)
    {token : Payload} (htoken : tokens[k]? = some token) (htakes : Takes G token s) :
    innerAt G value columns (k + 1) (s.advance (k + 1)) = innerAt G value columns k s := by
  obtain ⟨c, hc, hterm, haccepts⟩ := htakes
  have hfits := (h.saturated hG).fits hs
  obtain ⟨i, n, position, r⟩ := s
  obtain rfl : position = k := hfits.position
  have hflow := h.amount_token hG hvalue (isScore_inner _) htoken (i := i) hfits.rule hc hterm
  rw [if_pos haccepts] at hflow
  exact hflow

/-- A phrase and what waits for it have a part in the inner score of what has moved over it. -/
theorem Run.inner_mul_inner_le (hG : G.Compiled solver) (hsolver : solver.IsExact)
    (hvalue : G.algebra.IsAdditive value) (h : Run G goal tokens columns) {k : Nat}
    {s done : State ℝ W} (hs : s ∈ statesAt columns done.origin)
    (hnext : s.next? = some done.rule.lhs) (hopen : IsOpen k (pastColumn columns k) done) :
    innerAt G value columns done.origin s * innerAt G value columns k done
      ≤ innerAt G value columns k (s.advance k) := by
  have hsat := h.saturated hG
  obtain ⟨hdone, hcomplete, hlt⟩ := hopen
  have hmoved : s.advance k ∈ statesAt columns k := hsat.complete hdone hcomplete hlt hs hnext
  obtain ⟨i, n, l, r⟩ := s
  obtain rfl : l = done.origin := (hsat.fits hs).position
  have hchart : ChartRule G goal r := (hsat.fits hs).rule
  have hstart : done.rule.lhs ≠ .start := (hsat.fits hs).next_ne_start hG hsat.goal_ne hnext
  obtain ⟨q, hq, hqr⟩ := (hsat.fits hdone).rule.uses hG hstart
  have hname : done.rule.lhs ∈ G.names := hG.mem_names_of_uses ⟨_, q, hq, hqr⟩
  have hphrase : done.next? = none := (State.isComplete_iff_next?_eq_none done).mp hcomplete
  have hkernel : done ∈ kernel columns k := by
    refine Finset.mem_filter.mpr ⟨List.mem_toFinset.mpr hdone, fun hno => ?_⟩
    have horigin := (hsat.fits hdone).origin_eq hno.1
    omega
  have hsum := h.amount_eq_sum_complete hG hvalue hsolver (isScore_inner _) hnext hname hmoved
  refine le_of_le_of_eq (le_of_eq_of_le ?_ (Finset.single_le_sum (fun t ht => ?_) hkernel))
    hsum.symm
  · rw [if_pos ⟨hphrase, hstart⟩, if_pos rfl]
    rfl
  · have hrule := (h.fits_of_mem hG (Finset.mem_filter.mp ht).1).rule
    split
    · split
      · exact mul_nonneg (h.innerAt_nonneg hG hsolver hvalue t.origin
          (s := ⟨i, n, t.origin, r⟩) hchart) (h.innerAt_nonneg hG hsolver hvalue k hrule)
      · exact le_refl 0
    · exact le_refl 0

/-- Inner scores are closed under the steps of a derivation. -/
theorem Run.boundsScores_inner (hG : G.Compiled solver) (hsolver : solver.IsExact)
    (hvalue : G.algebra.IsAdditive value) (hpart : G.BestEmptyIsPart)
    (h : Run G goal tokens columns) :
    BoundsScores G goal tokens columns value (innerAt G value columns) := by
  have hsat := h.saturated hG
  refine ⟨fun {k s} hs => h.innerAt_nonneg hG hsolver hvalue k (hsat.fits hs).rule,
    fun {k s w} hs hdot hbegins => ?_,
    fun hs htoken htakes => (h.inner_advance_token hG hvalue hs htoken htakes).ge,
    fun hs hnext hopen => h.inner_mul_inner_le hG hsolver hvalue hs hnext hopen⟩
  have hfits := hsat.fits hs
  obtain ⟨i, n, position, r⟩ := s
  obtain rfl : position = k := hfits.position
  obtain rfl : n = 0 := hdot
  obtain rfl : i = position := hfits.origin_eq rfl
  have hinner : innerAt G value columns i ⟨i, 0, i, r⟩ = value r.weight :=
    h.inner_predicted hG hvalue hs
  rw [hinner]
  exact hbegins.value_le_weight hG hvalue hpart

/-- **The score of a state is not above its inner score.** -/
theorem Reads.value_le_inner (hG : G.Compiled solver) (hsolver : solver.IsExact)
    (hvalue : G.algebra.IsAdditive value) (hpart : G.BestEmptyIsPart)
    (h : Run G goal tokens columns) (hlinked : Linked G goal tokens columns) {k : Nat}
    {s : State ℝ W} {ds : List (Derivation ℝ W)} (hreads : Reads G tokens columns k s ds)
    {b : Backpointer ℝ W} (hb : (pastColumn columns k).best? s = some b) :
    value b.score ≤ innerAt G value columns k s :=
  hreads.value_le hG hvalue.toIsExact hlinked (h.saturated hG)
    (h.boundsScores_inner hG hsolver hvalue hpart) hb

/-! ## Charts -/

/-- Every state of a run has a best derivation, which is not scored above its inner score. -/
theorem Run.best_le_inner (hG : G.Compiled solver) (hsolver : solver.IsExact)
    (hvalue : G.algebra.IsAdditive value) (hpart : G.BestEmptyIsPart)
    (h : Run G goal tokens columns) {k : Nat} {c : Cell ℝ W} (hc : c ∈ pastColumn columns k) :
    ∃ b, c.best = some b ∧ value b.score ≤ value c.inner := by
  have hsat := h.saturated hG
  have hlinked := h.linked hG (neverRaises_of_isExact hG hvalue.toIsExact)
  have hs : c.state ∈ statesAt columns k := mem_states.mpr ⟨c, hc, rfl⟩
  obtain ⟨b, hb⟩ := hlinked.found hG hsat hs
  obtain ⟨ds, hds⟩ := hlinked.exists_reads hG hsat hs
  have hle := hds.value_le_inner hG hsolver hvalue hpart h hlinked hb
  have hinner : innerAt G value columns k c.state = value c.inner :=
    amount_of_mem (h.pastShaped hG k) hc
  rw [hinner] at hle
  rw [Column.best?_of_mem (hsat.shaped k).distinct hc] at hb
  exact ⟨b, hb, hle⟩

/-- If the tokens are accepted, their best parse is not more probable than they are. -/
theorem Fed.best_le_sentenceProbability (hG : G.Compiled solver) (hsolver : solver.IsExact)
    (hvalue : G.algebra.IsAdditive value) (hpart : G.BestEmptyIsPart) {p : Parser ℝ W}
    (h : Fed G goal tokens p) (haccepted : p.isAccepted = true) :
    ∃ tree w total, bestParse G p.chart p.position = .ok (some (tree, w)) ∧
      p.sentenceProbability? = some total ∧ value w ≤ total := by
  have hholds := h.holds
  have hrun := hholds.run
  have hsat := hrun.saturated hG
  have hlinked := hrun.linked hG (neverRaises_of_isExact hG hvalue.toIsExact)
  rcases hsat.finalStates_cases hG p.position with hnone | ⟨s, hs⟩
  · rw [isAccepted, hnone] at haccepted
    cases haccepted
  · have hmem : s ∈ finalStates p.chart p.position := by
      rw [hs]
      exact List.mem_singleton_self s
    have hstate := (mem_finalStates.mp hmem).1
    obtain ⟨tree, b, hbest, hb⟩ := hlinked.exists_bestParse hG hsat hs
    refine ⟨tree, b.score, innerAt G value p.chart.columns p.position s, hbest, ?_, ?_⟩
    · rw [h.sentenceProbability?_eq_sum hvalue, hs, List.map_singleton, List.sum_singleton]
      rw [hholds.position] at hstate ⊢
      rw [(hholds.chart_scores hG value (List.mem_toFinset.mpr hstate)).2]
    · obtain ⟨ds, hds⟩ := hlinked.exists_reads hG hsat hstate
      refine hds.value_le_inner hG hsolver hvalue hpart hrun hlinked ?_
      rw [Chart.best?, (hsat.fits hstate).position] at hb
      exact hb

/-- **Best scores are parts of inner scores.** Let arithmetic be exact, and let the best way to be
empty be no more probable, for every category, than all ways together, as it is if there are no
empty rules. Then every state in the chart of any tokens has a best derivation, with a score not
above the inner score of the state, and so have the states of a parser that has been offered any
tokens. If it accepts those it has taken, their best parse is not more probable than they are. -/
theorem best_scores_are_parts_of_inner_scores {A : ScoreAlgebra ℝ W} (hG : G.Built solver A)
    (hsolver : solver.IsExact) (hvalue : A.IsAdditive value)
    (hpart : G.IsEpsilonFree ∨ G.BestEmptyIsPart) :
    (∀ tokens chart, parse G goal tokens = .ok chart →
      ∀ k, ∀ c ∈ chart.column k, ∃ b, c.best = some b ∧ value b.score ≤ value c.inner) ∧
    ∀ offered p q taken, create G goal = .ok p → p.feed offered = .ok (q, taken) →
      (∀ k, ∀ c ∈ q.chart.column k, ∃ b, c.best = some b ∧ value b.score ≤ value c.inner) ∧
      (q.isAccepted = true → ∃ tree w best total,
        bestParse G q.chart q.position = .ok (some (tree, w)) ∧ A.toProbability w = some best ∧
        q.sentenceProbability? = some total ∧ best ≤ total) := by
  obtain ⟨hC, rfl⟩ := hG.compiled
  have hpart : G.BestEmptyIsPart := hpart.elim (fun hfree => hfree.bestEmptyIsPart hC) id
  refine ⟨fun tokens chart hparse k c hc => ?_, fun offered p q taken hcreate hfeed => ⟨?_, ?_⟩⟩
  · obtain ⟨taken, columns, hrun, hcolumn⟩ := exists_run_of_parse hparse
    rw [hcolumn k] at hc
    exact hrun.best_le_inner hC hsolver hvalue hpart hc
  · -- refused tokens leave a parser that agrees with the one that was never offered them
    obtain ⟨q', hfed, hagree⟩ := exists_fed_of_feed hcreate hfeed
    intro k c hc
    rw [hagree.column k] at hc
    exact hfed.holds.run.best_le_inner hC hsolver hvalue hpart hc
  · intro haccepted
    obtain ⟨q', hfed, hagree⟩ := exists_fed_of_feed hcreate hfeed
    rw [hagree.alike.isAccepted] at haccepted
    obtain ⟨tree, w, total, hbest, htotal, hle⟩ :=
      hfed.best_le_sentenceProbability hC hsolver hvalue hpart haccepted
    have hread := hagree.alike.bestParse
    rw [hagree.grammar, hfed.holds.grammar, hbest] at hread
    rw [hagree.alike.sentenceProbability]
    exact ⟨tree, w, value w, total, hread, hvalue.toProbability w, htotal, hle⟩

/-! ## A grammar with an empty rule -/

/-- A token with a category behind it that is empty with probability `p`. -/
def tailHeads (p : ℝ) : List (RuleHead × ℝ) :=
  [(⟨.plain, .name "S", [.name "a", .name "B"]⟩, 1), (⟨.plain, .name "B", [.name "b"]⟩, 1 - p),
    (⟨.plain, .name "B", []⟩, p)]

/-- A rule as a builder makes it. -/
def tailRule (lhs : String) (rhs : List Category) (p : ℝ) : Rule ℝ ℝ :=
  .given ⟨⟨.plain, .name lhs, rhs⟩, p, p, [], 0⟩

@[simp] theorem lhs_tailRule (lhs : String) (rhs : List Category) (p : ℝ) :
    (tailRule lhs rhs p).lhs = .name lhs :=
  rfl

@[simp] theorem rhs_tailRule (lhs : String) (rhs : List Category) (p : ℝ) :
    (tailRule lhs rhs p).rhs = rhs :=
  rfl

/-- The rules that a builder makes of this. -/
def tailRules (p : ℝ) : List (Rule ℝ ℝ) :=
  [tailRule "S" [.name "a", .name "B"] 1, tailRule "B" [.name "b"] (1 - p), tailRule "B" [] p]

section Tail

variable {p : ℝ} {G : Grammar ℝ ℝ} {solver : Solver ℝ} (hG : G.Compiled solver)
    (hrules : G.rules = tailRules p)
include hG hrules

theorem isNullable_of_tailRules (x : Category) : G.isNullable x = (x == .name "B") := by
  unfold Grammar.isNullable
  rw [hG.nullable, hG.index, hrules]
  show [Category.name "B"].contains x = _
  rw [List.contains_cons, List.contains_nil, Bool.or_false]

theorem isTerminal_of_tailRules : G.isTerminal (.name "a") = true := by
  refine (Grammar.isTerminal_iff (by simp)).mpr fun hnt => ?_
  obtain ⟨r, hr, hlhs⟩ := hG.mem_names.mp (hG.isNonterminal_iff.mp hnt)
  have hnone : ∀ r ∈ tailRules p, r.lhs ≠ .name "a" := by
    simp [tailRules]
  exact hnone r (hrules ▸ hr) hlhs

/-- No category is a left corner of another one, so that the left corners converge. -/
theorem not_cornersDiverge_of_tailRules : ¬ G.CornersDiverge fun c => 1 + G.emptyProbability c := by
  have hempty : ∀ c, (c == .name "B") = false → G.emptyProbability c = 0 := fun c hc =>
    hG.emptyProbability_of_not_nullable (by rw [isNullable_of_tailRules hG hrules, hc]; simp)
  have hnames : G.names = [.name "S", .name "B"] := by
    unfold names
    rw [hG.index, hrules]
    rfl
  have hcorners : ∀ behind y, G.cornerWeight behind (.name "S") y
        = [1 * cornerShare G.emptyProbability behind y [.name "a", .name "B"]].sum ∧
      G.cornerWeight behind (.name "B") y
        = [(1 - p) * cornerShare G.emptyProbability behind y [.name "b"],
          p * cornerShare G.emptyProbability behind y []].sum := by
    intro behind y
    unfold cornerWeight sourceRulesOf
    rw [hG.index, hrules]
    exact ⟨rfl, rfl⟩
  have hbound : (0 : ℝ) < 1 - 1e-12 := by norm_num
  refine hG.not_cornersDiverge (fun c => ?_) hbound ?_
  · exact add_nonneg zero_le_one (hG.emptyProbability_nonneg c)
  · rw [hnames]
    simp [hcorners, cornerShare_cons, cornerShare_nil, hempty (.name "a") rfl,
      hempty (.name "b") rfl]

/-- The rule without symbols is the best way to be empty, and all ways together are no less. -/
theorem bestEmptyIsPart_of_tailRules (hcounted : 1e-12 < p) : G.BestEmptyIsPart := by
  refine hG.bestEmptyIsPart fun x hx => ?_
  have hd : (Derivation.node (tailRule "B" [] p) []).IsSourceParse G :=
    .node (hrules ▸ by simp [tailRules]) rfl fun d hd => absurd hd List.not_mem_nil
  have hle := (weight_le_of_empty hG hd rfl).2
  rw [isNullable_of_tailRules hG hrules] at hx
  obtain rfl : Category.name "B" = x := Category.eq_of_beq rfl (BEq.symm hx)
  refine lt_of_lt_of_le ?_ hle
  show 1e-12 < p * 1
  rwa [mul_one]

/-- A parser for the grammar accepts the token alone, with the category behind it left out. -/
theorem exists_fed_tailGrammar (hcounted : 1e-12 < p) (halgebra : G.algebra = linearScores ℝ) :
    ∃ q, Fed G (.name "S") [.text "a"] q ∧ q.isAccepted = true := by
  have hnames : ∀ r ∈ G.rules, ∀ c ∈ r.rhs, ∃ y, c = .name y := by
    rw [hrules]
    simp [tailRules]
  have hmem : tailRule "S" [.name "a", .name "B"] 1 ∈ G.rules ∧
      tailRule "B" [] p ∈ G.rules := by
    rw [hrules]
    simp [tailRules]
  have hterm := isTerminal_of_tailRules hG hrules
  have hrule : Production.ofRule (tailRule "S" [.name "a", .name "B"] 1)
      ∈ G.productionsOf (.name "S") :=
    hG.mem_productionsOf.mpr ⟨rfl, _, hmem.1, by simp, .whole⟩
  have htakes : Takes G (.text "a") (.predicted (tailRule "S" [.name "a", .name "B"] 1) 0) :=
    ⟨.name "a", rfl, hterm, rfl⟩
  obtain ⟨q, hq⟩ := exists_fed_of_names hG (isNullable_of_tailRules hG hrules _) hnames hrule htakes
  refine ⟨q, hq, ?_⟩
  have hholds := hq.holds
  have hsat := hholds.run.saturated hG
  have hlinked := hholds.run.linked hG (neverRaises_of_isExact hG (halgebra ▸ isExact_linearScores))
  -- the derivation that is to be found has an empty category behind the token
  have hd : (Derivation.node (tailRule "S" [.name "a", .name "B"] 1) [.leaf (.name "a") (.text "a"),
      .node (tailRule "B" [] p) []]).IsParseOf G (· ∈ G.rules) (.name "S") [.text "a"] := by
    refine ⟨.node hmem.1 rfl ?_, rfl, rfl⟩
    simp only [List.forall_mem_cons]
    exact ⟨.leaf hterm rfl, .node hmem.2 rfl fun _ h => absurd h List.not_mem_nil,
      fun _ h => absurd h List.not_mem_nil⟩
  obtain ⟨s, hs, _⟩ := hlinked.exists_final hG
    (halgebra ▸ isExact_linearScores (K := ℝ))
    (fun x hx => (bestEmptyProbability_pos hG hx).trans_le
      (bestEmptyIsPart_of_tailRules hG hrules hcounted x hx)) hsat hd
  rw [isAccepted_iff, hholds.position]
  exact ⟨s, mem_finalStates.mp hs⟩

end Tail

/-- The grammar can be built. -/
theorem exists_tailGrammar {p : ℝ} (hcounted : 1e-12 < p) (hlt : p < 1) : ∃ G,
    Builder.compile realSolver (linearScores ℝ) false (tailHeads p) = .ok G ∧
    G.rules = tailRules p ∧ G.Built realSolver (linearScores ℝ) := by
  have hpos : 0 < p := lt_trans (by norm_num) hcounted
  have hproper : ∀ r ∈ tailHeads p, (0 < r.2 ∧ r.2 ≤ 1) ∧ r.1.IsPlain := by
    simp [tailHeads, RuleHead.IsPlain, Category.isTerminalObject, hpos, hpos.le, hlt, hlt.le]
  have hheads : ((tailHeads p).map Prod.fst).Pairwise fun a b => ¬ (a == b) = true := by
    simp only [tailHeads, List.map_cons, List.map_nil]
    decide
  have hmasses : Empty.masses (RuleIndex.ofRules (tailRules p))
      (Empty.nullable (RuleIndex.ofRules (tailRules p))) = .ok [(.name "B", p)] := by
    refine Empty.masses_of_constant rfl (fun q => ?_) ⟨hcounted, hlt.le⟩
    show [((.name "B" : Category), Probability.sum [p * Probability.prod []])] = _
    simp [Probability.sum_eq, Probability.prod_eq]
  obtain ⟨b, G, hadd, hb, hG, hrules, _⟩ := Builder.exists_build_lenient (linearScores ℝ)
    hproper (List.pairwise_map.mp hheads) rfl hmasses fun c => by
      rw [Empty.massAt, Table.get?_cons]
      split
      · exact ⟨hpos.le, hlt.le⟩
      · exact ⟨le_refl 0, zero_le_one⟩
  obtain ⟨hC, _⟩ := Built.compiled ⟨_, hb, hG⟩
  obtain ⟨left, unit, hbuild⟩ := hb.exists_build_of_converges isExact_realSolver hG
    (not_cornersDiverge_of_tailRules hC hrules)
  exact ⟨_, bind_eq_ok.mpr ⟨b, hadd, hbuild⟩, hrules, b, hb, hbuild⟩

/-- A token that is derived by way of any number of unit rules, by a grammar without empty rules;
and one with a category behind it that may be empty. -/
theorem loop_and_tail_best_scores_are_parts_of_inner_scores :
    (∃ G p, loopGrammar = .ok G ∧ Fed G (.name "S") [.text "a"] p ∧ G.IsEpsilonFree ∧
      (∀ k, ∀ c ∈ p.chart.column k, ∃ b, c.best = some b ∧ b.score ≤ c.inner) ∧
      ∃ tree best total, bestParse G p.chart p.position = .ok (some (tree, best)) ∧
        p.sentenceProbability? = some total ∧ best ≤ total) ∧
    ∃ G p, Builder.compile realSolver (linearScores ℝ) false (tailHeads (1 / 2)) = .ok G ∧
      Fed G (.name "S") [.text "a"] p ∧ G.isNullable (.name "B") = true ∧
      (∀ k, ∀ c ∈ p.chart.column k, ∃ b, c.best = some b ∧ b.score ≤ c.inner) ∧
      ∃ tree best total, bestParse G p.chart p.position = .ok (some (tree, best)) ∧
        p.sentenceProbability? = some total ∧ best ≤ total := by
  constructor
  · obtain ⟨G, hG, hrules⟩ := exists_loopGrammar
    obtain ⟨p, hp, haccepted⟩ := exists_fed_loopGrammar hG hrules
    have hbuilt := built_loopGrammar hG
    have hfree := isEpsilonFree_of_loopRules hrules
    obtain ⟨p₀, hcreate, hfeed⟩ := hp.exists_feed
    obtain ⟨hcells, hparse⟩ := (best_scores_are_parts_of_inner_scores hbuilt isExact_realSolver
      isAdditive_linearScores (.inl hfree)).2 _ p₀ p _ hcreate hfeed
    obtain ⟨tree, w, best, total, hbest, hw, htotal, hle⟩ := hparse haccepted
    cases hw
    exact ⟨G, p, hG, hp, hfree, hcells, tree, _, total, hbest, htotal, hle⟩
  · have hcounted : (1e-12 : ℝ) < 1 / 2 := by norm_num
    obtain ⟨G, hG, hrules, hbuilt⟩ := exists_tailGrammar hcounted one_half_lt_one
    obtain ⟨hC, halgebra⟩ := hbuilt.compiled
    obtain ⟨p, hp, haccepted⟩ := exists_fed_tailGrammar hC hrules hcounted halgebra
    have hnullable : G.isNullable (.name "B") = true := isNullable_of_tailRules hC hrules _
    obtain ⟨p₀, hcreate, hfeed⟩ := hp.exists_feed
    obtain ⟨hcells, hparse⟩ := (best_scores_are_parts_of_inner_scores hbuilt isExact_realSolver
      isAdditive_linearScores (.inr (bestEmptyIsPart_of_tailRules hC hrules hcounted))).2
        _ p₀ p _ hcreate hfeed
    obtain ⟨tree, w, best, total, hbest, hw, htotal, hle⟩ := hparse haccepted
    cases hw
    exact ⟨G, p, hG, hp, hnullable, hcells, tree, _, total, hbest, htotal, hle⟩

end Parser
end StochasticGrammar
