import StochasticGrammar.Proofs.Conservation
import StochasticGrammar.Proofs.Refusal

/-!
# Prediction and completion by single steps

A parser predicts only from what has found something, and moves over no complete unit rule: tables
of summed chains stand in for the steps that this leaves out. Here the steps are put back. With
exact tables every score is what the plain rules of prediction and completion say, over all states
of the chart, those included that the parser itself passes over.

The equations are fixed points and not recipes. With left recursion a predicted state is among the
states that its own score is summed over, and with a cycle of unit rules a complete state is among
those that it is completed over. What makes them hold is that a chain is either empty or has a first
edge (`unitScore_eq`) and a last one (`leftCornerScore_eq`).

> `prediction_is_plain`: a predicted state has the weight of its rule times the forward scores of
> all that waits for its category.

> `completion_is_plain`: a state that has moved over a category has the scores of what waited for it
> times the inner scores of all phrases of that category.
-/

namespace StochasticGrammar.Parser

open scoped Classical
open Grammar
open Relation (ReflTransGen)

variable {W : Type} [DecidableEq W] {solver : Solver ℝ} {G : Grammar ℝ W} {goal : Category}
  {value : W → ℝ} {tokens : List Payload} {columns : List (Column ℝ W)}

/-! ## Prediction -/

/-- **A rule is predicted where something waits for its category**: some kernel state, or a rule
that was itself predicted and begins with it. -/
theorem Saturated.predicted_mem_iff (hG : G.Compiled solver) (h : Saturated G goal tokens columns)
    {k : Nat} {y : Category} {q : Production ℝ W} (hq : q ∈ G.productionsOf y) :
    .predicted q.rule k ∈ statesAt columns k ↔ ∃ s ∈ statesAt columns k, s.next? = some y := by
  constructor
  · intro hmem
    have hlhs := lhs_ne_start_of_used hG hq
    generalize ht : State.predicted q.rule k = t at hmem
    cases h.justified hmem with
    | seed =>
      have hrule : q.rule = startRule G.algebra goal := congrArg State.rule ht
      rw [hrule] at hlhs
      exact absurd rfl hlhs
    | empty hnull hempty =>
      have hrule : q.rule = _ := congrArg State.rule ht
      rw [hrule, emptyStart_eq_ok hempty] at hlhs
      exact absurd rfl hlhs
    | @predicted _ d z x q' hd _ hz hchain hq' =>
      have hrule : q.rule = q'.rule := congrArg State.rule ht
      have hxy : x = y := by rw [← (hG.isSound hq').lhs, ← hrule, (hG.isSound hq).lhs]
      subst hxy
      -- the last rule of the chain is predicted too, and begins with the category
      rcases ReflTransGen.cases_tail hchain with heq | ⟨w, hbefore, q'', hq'', rest, hrhs, _⟩
      · exact ⟨d, hd, by rw [hz, heq]⟩
      · refine ⟨.predicted q''.rule k, h.predicted_of_leftStep hbefore hq'' hd hz, ?_⟩
        simp [State.next?, State.predicted, hrhs]
    | scanned => cases congrArg State.dot ht
    | completed => cases congrArg State.dot ht
  · intro hwaits
    obtain ⟨s, hs, hnext⟩ := hwaits
    exact h.predict hs hnext hq

/-! ## Completion -/

section Completion

variable (hG : G.Compiled solver) (hvalue : G.algebra.IsAdditive value)
  (h : Run G goal tokens columns)
include hG hvalue h

/-- A complete state of a unit rule, by the phrases that it was completed over. -/
theorem innerAt_done_unit {l k : Nat} {token : Payload} (hk : tokens[k]? = some token) (hl : l ≤ k)
    {r : Rule ℝ W} (hr : G.Uses r) (hunit : G.isUnit r = true)
    (hmem : .predicted r l ∈ statesAt columns l) :
    innerAt G value columns (k + 1) (done (k + 1) r l)
      = r.probability * phraseScore G value columns (r.rhs.headD .start) l (k + 1) := by
  have hweight := value_weight_of_uses hG hvalue hr
  obtain ⟨x, q, hq, rfl⟩ := hr
  obtain ⟨y, hrhs, hy⟩ := isUnit_iff.mp hunit
  have hstate : done (k + 1) q.rule l = ⟨l, 0 + 1, k + 1, q.rule⟩ := by
    unfold done
    rw [hrhs]
    rfl
  have hinner : amount G.algebra value Cell.inner (pastColumn columns l) ⟨l, 0, l, q.rule⟩
      = q.rule.probability := (h.inner_predicted hG hvalue hmem).trans hweight
  have hflow := h.inner_succ hG hvalue hk (i := l) (n := 0) (.used hq) (by rw [hrhs]; rfl)
    (hG.isNonterminal_iff.mp hy)
  rw [Finset.sum_eq_single l, hinner] at hflow
  · rw [innerAt, hstate, hrhs]
    exact hflow
  · -- the rule begins where its phrase does
    intro l' _ hne
    rw [h.amount_of_not_fits hG hvalue (isScore_inner _) (s := ⟨l, 0, l', q.rule⟩) (.used hq),
      zero_mul]
    exact fun hfits => hne (hfits.origin_eq rfl).symm
  · intro hout
    exact absurd (Finset.mem_Ico.mpr ⟨Nat.le_refl l, Nat.lt_succ_of_le hl⟩) hout

variable (hsolver : solver.IsExact)
include hsolver

/-- **The phrases of a category that something waits for** are its complete states, those of unit
rules included. Without anything that waits, its unit rules would not have been predicted, while a
phrase at the end of a chain might be there for another reason. -/
theorem Run.phraseScore_eq {l k : Nat} {token : Payload} (hk : tokens[k]? = some token) (hl : l ≤ k)
    {s : State ℝ W} (hs : s ∈ statesAt columns l) {x : Category} (hnext : s.next? = some x)
    (hx : x ∈ G.names) :
    phraseScore G value columns x l (k + 1)
      = ∑ r ∈ G.usedRules, if r.lhs = x then innerAt G value columns (k + 1) (done (k + 1) r l)
          else 0 := by
  -- a chain to a phrase is empty, or begins with a unit rule
  have hfirst : ∀ r' ∈ G.plainRules, value (G.unitScore x r'.lhs)
        * innerAt G value columns (k + 1) (done (k + 1) r' l)
      = (if r'.lhs = x then innerAt G value columns (k + 1) (done (k + 1) r' l) else 0)
        + ∑ r ∈ G.usedRules.filter fun r => G.isUnit r = true, if r.lhs = x then r.probability
          * (value (G.unitScore (r.rhs.headD .start) r'.lhs)
            * innerAt G value columns (k + 1) (done (k + 1) r' l)) else 0 := by
    intro r' hr'
    have hname := hG.mem_names_of_uses ((mem_plainRules hG).mp hr').1
    rw [unitScore_eq hG hsolver hvalue hx hname, add_mul, ite_mul, one_mul, zero_mul,
      Finset.sum_mul, Finset.sum_filter]
    simp only [eq_comm (a := x)]
    refine congrArg _ (Finset.sum_congr rfl fun r _ => ?_)
    by_cases hunit : G.isUnit r = true <;> by_cases hlhs : r.lhs = x <;>
      simp [hunit, hlhs, mul_assoc]
  -- with its phrases behind it, that rule is a complete state
  have hunit : ∀ r ∈ G.usedRules.filter fun r => G.isUnit r = true,
      (∑ r' ∈ G.plainRules, if r.lhs = x then r.probability
          * (value (G.unitScore (r.rhs.headD .start) r'.lhs)
            * innerAt G value columns (k + 1) (done (k + 1) r' l)) else 0)
        = if r.lhs = x then innerAt G value columns (k + 1) (done (k + 1) r l) else 0 := by
    intro r hr
    obtain ⟨hr, hunit⟩ := Finset.mem_filter.mp hr
    have huses := hG.mem_usedRules.mp hr
    split
    · rename_i hlhs
      have hmem : .predicted r l ∈ statesAt columns l := by
        obtain ⟨y, q, hq, rfl⟩ := huses
        rw [(hG.isSound hq).lhs] at hlhs
        subst hlhs
        exact (h.saturated hG).predict hs hnext hq
      rw [← Finset.mul_sum, innerAt_done_unit hG hvalue h hk hl huses hunit hmem]
      rfl
    · exact Finset.sum_const_zero
  calc phraseScore G value columns x l (k + 1)
      = (∑ r' ∈ G.plainRules, if r'.lhs = x then
            innerAt G value columns (k + 1) (done (k + 1) r' l) else 0)
          + ∑ r ∈ G.usedRules.filter fun r => G.isUnit r = true, ∑ r' ∈ G.plainRules,
              if r.lhs = x then r.probability * (value (G.unitScore (r.rhs.headD .start) r'.lhs)
                * innerAt G value columns (k + 1) (done (k + 1) r' l)) else 0 := by
        rw [Finset.sum_comm, ← Finset.sum_add_distrib]
        exact Finset.sum_congr rfl hfirst
    _ = ∑ r ∈ G.usedRules, if r.lhs = x then
          innerAt G value columns (k + 1) (done (k + 1) r l) else 0 := by
        rw [Finset.sum_congr rfl hunit, ← filter_not_isUnit hG, add_comm,
          Finset.sum_filter_add_sum_filter_not]

/-- **How scores flow over phrases**, by single steps: a state that moves over a category is summed
over the complete states of that category and what waited for them. -/
theorem Run.amount_eq_sum_complete {part : Cell ℝ W → W} (hpart : IsScore G.algebra part)
    {i n k : Nat} {r : Rule ℝ W} {x : Category} (hx : r.rhs[n]? = some x) (hname : x ∈ G.names)
    (hmem : (⟨i, n + 1, k, r⟩ : State ℝ W) ∈ statesAt columns k) :
    amount G.algebra value part (pastColumn columns k) ⟨i, n + 1, k, r⟩
      = ∑ t ∈ kernel columns k, if t.next? = none ∧ t.rule.lhs ≠ .start then
          (if t.rule.lhs = x then amount G.algebra value part (pastColumn columns t.origin)
            ⟨i, n, t.origin, r⟩ * innerAt G value columns k t else 0) else 0 := by
  have hfits := (h.saturated hG).fits hmem
  have hk := h.le_length_of_mem hmem
  have hlt : i < k := hfits.origin_lt (Nat.succ_pos n)
  rw [h.sum_complete hG k fun {r' l} huses hout => by
    have hzero : innerAt G value columns k (done k r' l) = 0 :=
      h.amount_done_of_not_mem hG hvalue (isScore_inner _) huses hout
    rw [hzero, mul_zero, ite_self]]
  obtain ⟨k, rfl⟩ : ∃ k', k = k' + 1 := ⟨k - 1, by omega⟩
  have htoken : tokens[k]? = some (tokens.get ⟨k, hk⟩) := List.getElem?_eq_getElem hk
  have hnot : ¬ (G.isTerminal x = true ∧ x.accepts (tokens.get ⟨k, hk⟩) = .ok true) :=
    fun hterm => hG.not_isTerminal_of_mem hname hterm.1
  rw [h.amount_succ hG hvalue hpart htoken hfits.rule hx, if_neg hnot, zero_add]
  apply Finset.sum_congr rfl
  intro l hl
  have hl : l ≤ k := Nat.le_of_lt_succ (Finset.mem_range.mp hl)
  by_cases hwaits : (⟨i, n, l, r⟩ : State ℝ W) ∈ statesAt columns l
  · have hphrases : phraseScore G value columns x l (k + 1) = _ :=
      h.phraseScore_eq hG hvalue hsolver htoken hl hwaits hx hname
    rw [phraseScore] at hphrases
    rw [hphrases, Finset.mul_sum]
    refine Finset.sum_congr rfl fun r' _ => ?_
    rw [mul_ite, mul_zero]
    rfl
  · -- what does not wait there moves over nothing
    have hzero : amount G.algebra value part (pastColumn columns l) ⟨i, n, l, r⟩ = 0 :=
      amount_of_not_mem hG hvalue hpart (h.pastShaped hG l) (s := ⟨i, n, l, r⟩) hfits.rule hwaits
    have hdone : ∀ r' : Rule ℝ W,
        amount G.algebra value part (pastColumn columns (done (k + 1) r' l).origin)
        ⟨i, n, (done (k + 1) r' l).origin, r⟩ = 0 := fun _ => hzero
    simp only [hzero, hdone, zero_mul, ite_self, Finset.sum_const_zero]

end Completion

/-! ## Charts -/

section Charts

variable {chart : Chart ℝ W}

/-- The columns of a chart are those of a run. -/
theorem exists_run_of_parse (h : parse G goal tokens = .ok chart) :
    ∃ taken columns, Run G goal taken columns ∧ ∀ k, chart.column k = pastColumn columns k := by
  obtain ⟨taken, rest, past, _, hrun, hcolumns, _⟩ := parse_eq_ok h
  refine ⟨taken, past, hrun, fun k => ?_⟩
  show pastColumn chart.columns k = _
  rw [hcolumns, pastColumn_append_replicate]

variable {A : ScoreAlgebra ℝ W}

theorem inner_eq_of_column_eq (hcolumn : ∀ k, chart.column k = pastColumn columns k)
    (s : State ℝ W) :
    chart.inner A s = ((pastColumn columns s.position).cell A s).inner := by
  unfold Chart.inner
  rw [hcolumn, Column.inner_eq_cell]

theorem forward_eq_of_column_eq (hcolumn : ∀ k, chart.column k = pastColumn columns k)
    (s : State ℝ W) : chart.forward A s = ((pastColumn columns s.position).cell A s).forward := by
  unfold Chart.forward
  rw [hcolumn, Column.forward_eq_cell]

/-- The state that had not yet found its last symbol, at the position where that symbol begins. -/
def before (s : State ℝ W) (position : Nat) : State ℝ W :=
  { s with position, dot := s.dot - 1 }

/-- The complete states of a category in the order of the chart, as a part of its kernel. -/
theorem Run.sum_completed (hG : G.Compiled solver) (h : Run G goal tokens columns)
    (hcolumn : ∀ k, chart.column k = pastColumn columns k) {k : Nat} {x : Category}
    (hname : x ∈ G.names) (f : State ℝ W → ℝ) :
    ((chart.completed k x).map f).sum
      = ∑ t ∈ kernel columns k, if t.next? = none ∧ t.rule.lhs ≠ .start then
          (if t.rule.lhs = x then f t else 0) else 0 := by
  have hshaped := h.pastShaped hG k
  have hcompleted : chart.completed k x
      = (statesAt columns k).filter fun s => s.isComplete && s.rule.lhs == x := by
    unfold Chart.completed statesAt
    rw [hcolumn k]
    rfl
  have hnodup : (chart.completed k x).Nodup := by
    rw [hcompleted]
    exact hshaped.nodup_states.filter _
  have hstart := hG.ne_start_of_mem_names hname
  simp only [← ite_and]
  rw [← List.sum_toFinset _ hnodup, ← Finset.sum_filter, hcompleted]
  refine Finset.sum_congr ?_ fun _ _ => rfl
  ext t
  rw [List.mem_toFinset, List.mem_filter, Finset.mem_filter, kernel, Finset.mem_filter,
    List.mem_toFinset, Bool.and_eq_true, State.isComplete_iff_next?_eq_none]
  constructor
  · intro ht
    obtain ⟨hmem, hnext, hlhs⟩ := ht
    have heq : t.rule.lhs = x := (Category.eq_of_beq (hG.names_plain hname) (BEq.symm hlhs)).symm
    refine ⟨⟨hmem, fun hno => ?_⟩, ⟨hnext, by rw [heq]; exact hstart⟩, heq⟩
    -- a state that has found nothing is not complete
    have hfits := h.fits_of_mem hG (List.mem_toFinset.mpr hmem)
    obtain ⟨q, hq, hrule⟩ := hfits.rule.uses hG hno.2
    have hdot := hfits.dot_eq_of_isComplete ((State.isComplete_iff_next?_eq_none t).mpr hnext)
    rw [hno.1, ← hrule] at hdot
    exact (hG.isSound hq).rhs_ne (List.length_eq_zero_iff.mp hdot.symm)
  · intro ht
    obtain ⟨⟨hmem, _⟩, ⟨hnext, _⟩, rfl⟩ := ht
    exact ⟨hmem, hnext, BEq.rfl⟩

/-- A state that has moved over a category, by the complete states of that category in the order of
the chart and by what waited for them where they begin. -/
theorem Run.amount_eq_sum_completed (hG : G.Compiled solver) (hsolver : solver.IsExact)
    (hvalue : G.algebra.IsAdditive value) (h : Run G goal tokens columns)
    (hcolumn : ∀ k, chart.column k = pastColumn columns k) {part : Cell ℝ W → W}
    (hpart : IsScore G.algebra part) {k : Nat} {s : State ℝ W} (hs : s ∈ statesAt columns k)
    (hdot : 0 < s.dot) {z : Category} (hz : s.rule.rhs[s.dot - 1]? = some z) (hname : z ∈ G.names) :
    amount G.algebra value part (pastColumn columns s.position) s
      = (((chart.completed k z).filter fun c => chart.contains (before s c.origin)).map fun c =>
          amount G.algebra value part (pastColumn columns c.origin) (before s c.origin)
            * value (chart.inner G.algebra c)).sum := by
  have hfits := (h.saturated hG).fits hs
  obtain ⟨i, n, position, r⟩ := s
  obtain rfl : position = k := hfits.position
  obtain ⟨n, rfl⟩ : ∃ m, n = m + 1 := ⟨n - 1, (Nat.succ_pred_eq_of_pos hdot).symm⟩
  have hwaits : ∀ l, chart.contains (⟨i, n, l, r⟩ : State ℝ W) = true ↔
      (⟨i, n, l, r⟩ : State ℝ W) ∈ statesAt columns l := by
    intro l
    unfold Chart.contains
    rw [hcolumn]
    exact (h.pastShaped hG l).contains_iff_mem_states hG hfits.rule
  have hz : r.rhs[n]? = some z := hz
  have hfilter := sum_map_filter
    (fun c : State ℝ W => chart.contains (⟨i, n, c.origin, r⟩ : State ℝ W) = true)
    (fun c => amount G.algebra value part (pastColumn columns c.origin) ⟨i, n, c.origin, r⟩
      * value (chart.inner G.algebra c)) (chart.completed position z)
  simp only [Bool.decide_eq_true] at hfilter
  refine Eq.trans ?_ hfilter.symm
  rw [h.sum_completed hG hcolumn hname,
    h.amount_eq_sum_complete hG hvalue hsolver hpart hz hname hs]
  apply Finset.sum_congr rfl
  intro t ht
  have hposition := (h.fits_of_mem hG (Finset.mem_filter.mp ht).1).position
  rw [inner_eq_of_column_eq hcolumn, hposition]
  by_cases hin : chart.contains (⟨i, n, t.origin, r⟩ : State ℝ W) = true
  · rw [if_pos hin]
    rfl
  · -- what is not in the chart amounts to nothing
    have hzero := amount_of_not_mem hG hvalue hpart (h.pastShaped hG t.origin)
      (s := ⟨i, n, t.origin, r⟩) hfits.rule fun hmem => hin ((hwaits t.origin).mpr hmem)
    rw [if_neg hin, hzero, zero_mul]

/-- After its token, a chart of the loop grammar has completed the unit rule and predicts it
again. -/
theorem exists_loop_chart : ∃ G chart, loopGrammar = .ok G ∧
    parse G (.name "S") [.text "a"] = .ok chart ∧
    Production.ofRule (loopRule [.name "S"] (1 / 4)) ∈ G.productionsOf (.name "S") ∧
    ⟨0, 1, 1, loopRule [.name "S"] (1 / 4)⟩ ∈ (chart.column 1).states ∧
    .predicted (loopRule [.name "S"] (1 / 4)) 1 ∈ (chart.column 1).states := by
  obtain ⟨G, hloop, hrules⟩ := exists_loopGrammar
  obtain ⟨hG, _⟩ := (built_loopGrammar hloop).compiled
  obtain ⟨p, hp, _⟩ := exists_fed_loopGrammar hloop hrules
  obtain ⟨p₀, hcreate, hfeed⟩ := hp.exists_feed
  have hsat := hp.holds.run.saturated hG
  have hterm := isTerminal_of_loopRules hG hrules
  have hunit := ofRule_mem_of_loopRules hG hrules (r := loopRule [.name "S"] (1 / 4))
    List.mem_cons_self
  have hone := ofRule_mem_of_loopRules hG hrules (r := loopRule [.name "a"] (1 / 2))
    (List.mem_cons_of_mem _ List.mem_cons_self)
  have htwo := ofRule_mem_of_loopRules hG hrules (r := loopRule [.name "a", .name "S"] (1 / 4))
    (List.mem_cons_of_mem _ (List.mem_cons_of_mem _ List.mem_cons_self))
  have hdone := hsat.scan (hsat.predict hsat.seed rfl hone) rfl ⟨.name "a", rfl, hterm, rfl⟩
  have hwaits := hsat.scan (hsat.predict hsat.seed rfl htwo) rfl ⟨.name "a", rfl, hterm, rfl⟩
  refine ⟨G, _, hloop, parse_of_feed hcreate hfeed, hunit, ?_, ?_⟩
  · rw [Chart.column_ensure]
    exact hsat.complete hdone rfl Nat.zero_lt_one (hsat.predict hsat.seed rfl hunit) rfl
  · rw [Chart.column_ensure]
    exact hsat.predict hwaits rfl hunit

/-- **Prediction by single steps.** With exact arithmetic, in the chart of any tokens: a rule stands
predicted at a position where some state, predicted or not, waits for its category, and nowhere
else. Its inner score is then the weight of the rule, and its forward score that weight times the
forward scores of all states there that wait for its category. -/
theorem prediction_is_plain (hG : G.Built solver A) (hsolver : solver.IsExact)
    (hvalue : A.IsAdditive value) (hparse : parse G goal tokens = .ok chart) (k : Nat)
    {y : Category} {q : Production ℝ W} (hq : q ∈ G.productionsOf y) :
    (.predicted q.rule k ∈ (chart.column k).states ↔
      ∃ s ∈ (chart.column k).states, s.next? = some y) ∧
    (.predicted q.rule k ∈ (chart.column k).states →
      value (chart.inner A (.predicted q.rule k)) = value q.rule.weight ∧
      value (chart.forward A (.predicted q.rule k)) = value q.rule.weight
        * (((chart.column k).waiting y).map fun c => value c.forward).sum) := by
  obtain ⟨hC, rfl⟩ := hG.compiled
  obtain ⟨taken, columns, hrun, hcolumn⟩ := exists_run_of_parse hparse
  have huses : G.Uses q.rule := ⟨y, q, hq, rfl⟩
  have hlhs := (hC.isSound hq).lhs
  have hname : y ∈ G.names := hlhs ▸ hC.mem_names_of_uses huses
  have hwaiting : (((chart.column k).waiting y).map fun c => value c.forward).sum
      = demand G value columns k y := by
    have hsum : (((pastColumn columns k).waiting y).map fun c => 1 * value c.forward).sum = _ :=
      sum_waiting hC (hrun.pastShaped hC k) hname fun _ => 1
    simp only [one_mul] at hsum
    rw [hcolumn k, hsum]
    exact hrun.sum_next hC hsolver hvalue k hname
  rw [hcolumn k] at hwaiting ⊢
  refine ⟨(hrun.saturated hC).predicted_mem_iff hC hq, fun hmem => ⟨?_, ?_⟩⟩
  · rw [inner_eq_of_column_eq hcolumn]
    exact hrun.inner_predicted hC hvalue hmem
  · rw [forward_eq_of_column_eq hcolumn, hwaiting, value_weight_of_uses hC hvalue huses, mul_comm]
    exact hlhs ▸ forwardAt_predicted hC hvalue hrun k huses

theorem loop_prediction_is_plain :
    ∃ G chart, loopGrammar = .ok G ∧ parse G (.name "S") [.text "a"] = .ok chart ∧
      (∃ s ∈ (chart.column 1).states, s.next? = some (.name "S")) ∧
      chart.forward (linearScores ℝ) (.predicted (loopRule [.name "S"] (1 / 4)) 1)
        = 1 / 4 * (((chart.column 1).waiting (.name "S")).map fun c => c.forward).sum := by
  obtain ⟨G, chart, hG, hparse, hq, _, hmem⟩ := exists_loop_chart
  obtain ⟨hiff, hscores⟩ := prediction_is_plain (built_loopGrammar hG) isExact_realSolver
    isAdditive_linearScores hparse 1 hq
  exact ⟨G, chart, hG, hparse, hiff.mp hmem, (hscores hmem).2⟩

/-- **Completion by single steps.** With exact arithmetic, in the chart of any tokens: the inner
score of a state whose last symbol is a nonterminal is the sum, over all complete states of that
nonterminal that end there and begin where the state waited for it, of its inner score before times
theirs. Its forward score is the same sum with the forward scores before. -/
theorem completion_is_plain (hG : G.Built solver A) (hsolver : solver.IsExact)
    (hvalue : A.IsAdditive value) (hparse : parse G goal tokens = .ok chart) {k : Nat}
    {s : State ℝ W} (hs : s ∈ (chart.column k).states) (hdot : 0 < s.dot) {z : Category}
    (hz : s.rule.rhs[s.dot - 1]? = some z) (hname : G.isNonterminal z = true) :
    value (chart.inner A s)
        = (((chart.completed k z).filter fun c => chart.contains (before s c.origin)).map fun c =>
            value (chart.inner A (before s c.origin)) * value (chart.inner A c)).sum ∧
      value (chart.forward A s)
        = (((chart.completed k z).filter fun c => chart.contains (before s c.origin)).map fun c =>
            value (chart.forward A (before s c.origin)) * value (chart.inner A c)).sum := by
  obtain ⟨hC, rfl⟩ := hG.compiled
  obtain ⟨taken, columns, hrun, hcolumn⟩ := exists_run_of_parse hparse
  have hname := hC.isNonterminal_iff.mp hname
  rw [hcolumn k] at hs
  rw [inner_eq_of_column_eq hcolumn s, forward_eq_of_column_eq hcolumn s]
  simp only [inner_eq_of_column_eq hcolumn (before s _),
    forward_eq_of_column_eq hcolumn (before s _)]
  exact ⟨hrun.amount_eq_sum_completed hC hsolver hvalue hcolumn (isScore_inner _) hs hdot hz hname,
    hrun.amount_eq_sum_completed hC hsolver hvalue hcolumn (isScore_forward _) hs hdot hz hname⟩

theorem loop_completion_is_plain :
    ∃ G chart, loopGrammar = .ok G ∧ parse G (.name "S") [.text "a"] = .ok chart ∧
      ∃ s, s = ⟨0, 1, 1, loopRule [.name "S"] (1 / 4)⟩ ∧ s ∈ (chart.column 1).states ∧
        chart.inner (linearScores ℝ) s
          = (((chart.completed 1 (.name "S")).filter fun c =>
              chart.contains (before s c.origin)).map fun c =>
                chart.inner (linearScores ℝ) (before s c.origin)
                  * chart.inner (linearScores ℝ) c).sum := by
  obtain ⟨G, chart, hG, hparse, hq, hmem, _⟩ := exists_loop_chart
  have hbuilt := built_loopGrammar hG
  have hname := (hbuilt.compiled.1.isSound hq).nonterminal
  exact ⟨G, chart, hG, hparse, _, rfl, hmem, (completion_is_plain hbuilt isExact_realSolver
    isAdditive_linearScores hparse hmem Nat.zero_lt_one rfl hname).1⟩

end Charts

end StochasticGrammar.Parser
