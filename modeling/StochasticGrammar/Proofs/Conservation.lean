import StochasticGrammar.Proofs.Corners
import StochasticGrammar.Proofs.Steps

/-!
# Forward scores are conserved

What is scanned into a column flows on: over complete phrases to the states that waited for them,
and from there to the rules at the left corners of what comes next. If the probabilities of every
category sum up to one, nothing is lost or gained on the way, so that in the end all of it waits for
terminals or has completed the start symbol.

> `Run.sum_terminal`: prediction hands on what the incomplete states of a kernel have.

> `Run.sum_kernel`, `Run.sum_done`: completion adds what complete states have, apart from those of
> the start symbol.
-/

namespace StochasticGrammar.Parser

open scoped Classical
open Grammar

variable {W : Type} [DecidableEq W] {solver : Solver ℝ} {G : Grammar ℝ W} {goal : Category}
  {value : W → ℝ} {tokens : List Payload} {columns : List (Column ℝ W)}

/-- The forward score of a state at a position. -/
noncomputable def forwardAt (G : Grammar ℝ W) (value : W → ℝ) (columns : List (Column ℝ W))
    (k : Nat) (s : State ℝ W) : ℝ :=
  amount G.algebra value Cell.forward (pastColumn columns k) s

/-- The inner score of a state at a position. -/
noncomputable def innerAt (G : Grammar ℝ W) (value : W → ℝ) (columns : List (Column ℝ W)) (k : Nat)
    (s : State ℝ W) : ℝ :=
  amount G.algebra value Cell.inner (pastColumn columns k) s

/-- How much of the forward score at a position calls for a category, directly or as a left
corner. -/
noncomputable def demand (G : Grammar ℝ W) (value : W → ℝ) (columns : List (Column ℝ W)) (k : Nat)
    (x : Category) : ℝ :=
  ∑ s ∈ kernel columns k, forwardAt G value columns k s * cornerOf G value s x

/-- The states of a column. -/
noncomputable def stateSet (columns : List (Column ℝ W)) (k : Nat) : Finset (State ℝ W) :=
  (statesAt columns k).toFinset

/-! ## Prediction -/

section Prediction

theorem forwardAt_predicted (hG : G.Compiled solver) (hvalue : G.algebra.IsAdditive value)
    (h : Run G goal tokens columns) (k : Nat) {r : Rule ℝ W} (hr : G.Uses r) :
    forwardAt G value columns k (.predicted r k)
      = demand G value columns k r.lhs * r.probability := by
  rw [← value_weight_of_uses hG hvalue hr]
  exact h.forward_predicted hG hvalue k hr

theorem Run.fits_of_mem (hG : G.Compiled solver) (h : Run G goal tokens columns) {k : Nat}
    {s : State ℝ W} (hs : s ∈ stateSet columns k) : Fits G goal k s :=
  (h.saturated hG).fits (List.mem_toFinset.mp hs)

/-- A state outside the kernel is predicted. -/
theorem Run.eq_predicted (hG : G.Compiled solver) (h : Run G goal tokens columns) {k : Nat}
    {s : State ℝ W} (hs : s ∈ stateSet columns k) (hkernel : ¬ IsKernel s) :
    s.rule ∈ G.usedRules ∧ s = .predicted s.rule k := by
  have hfits := h.fits_of_mem hG hs
  obtain ⟨hdot, hlhs⟩ := not_not.mp hkernel
  obtain ⟨q, hq, hrule⟩ := hfits.rule.uses hG hlhs
  refine ⟨hG.mem_usedRules.mpr ⟨_, q, hq, hrule⟩, ?_⟩
  have horigin := hfits.origin_eq hdot
  have hposition := hfits.position
  obtain ⟨origin, dot, position, r⟩ := s
  dsimp only at hdot horigin hposition
  rw [hdot, horigin, hposition]
  rfl

/-- The states outside a kernel, by their rules. What is summed over them is nothing for a state
that is not there. -/
theorem Run.sum_predicted (hG : G.Compiled solver) (h : Run G goal tokens columns) (k : Nat)
    {f : State ℝ W → ℝ}
    (hf : ∀ {r}, G.Uses r → .predicted r k ∉ statesAt columns k → f (.predicted r k) = 0) :
    (∑ s ∈ stateSet columns k with ¬ IsKernel s, f s) = ∑ r ∈ G.usedRules, f (.predicted r k) := by
  have hpredicted : ∀ {s}, s ∈ (stateSet columns k).filter (fun s => ¬ IsKernel s) →
      s.rule ∈ G.usedRules ∧ s = .predicted s.rule k := by
    intro s hs
    obtain ⟨hs, hkernel⟩ := Finset.mem_filter.mp hs
    exact h.eq_predicted hG hs hkernel
  refine Finset.sum_of_injOn State.rule ?_ (fun s hs => (hpredicted hs).1) ?_ ?_
  · intro s hs s' hs' heq
    rw [(hpredicted hs).2, (hpredicted hs').2, heq]
  · intro r hr hout
    obtain ⟨x, q, hq, rfl⟩ := hG.mem_usedRules.mp hr
    refine hf ⟨x, q, hq, rfl⟩ fun hmem => hout ⟨_, Finset.mem_coe.mpr (Finset.mem_filter.mpr
      ⟨List.mem_toFinset.mpr hmem, not_not.mpr ⟨rfl, ?_⟩⟩), rfl⟩
    exact lhs_ne_start_of_used hG hq
  · intro s hs
    rw [← (hpredicted hs).2]

/-- **What the states of a column contribute by what they wait for**, over its kernel. -/
theorem Run.sum_waiting (hG : G.Compiled solver) (hvalue : G.algebra.IsAdditive value)
    (h : Run G goal tokens columns) (k : Nat) (waits : Option Category → Prop)
    [DecidablePred waits] :
    (∑ s ∈ stateSet columns k, if waits s.next? then forwardAt G value columns k s else 0)
      = ∑ s ∈ kernel columns k, forwardAt G value columns k s
        * ((if waits s.next? then 1 else 0) + ∑ r ∈ G.usedRules,
            if waits r.rhs[0]? then cornerOf G value s r.lhs * r.probability else 0) := by
  have hpredicted : (∑ s ∈ stateSet columns k with ¬ IsKernel s,
      if waits s.next? then forwardAt G value columns k s else 0)
        = ∑ r ∈ G.usedRules, if waits r.rhs[0]? then
            forwardAt G value columns k (.predicted r k) else 0 := by
    refine h.sum_predicted hG k fun {r} hr hout => ?_
    obtain ⟨x, q, hq, rfl⟩ := hr
    rw [forwardAt, amount_of_not_mem hG hvalue (isScore_forward _) (h.pastShaped hG k)
      (s := .predicted q.rule k) (.used hq) hout, ite_self]
  -- what a rule is predicted with, state by state of the kernel
  have hcorner : ∀ r ∈ G.usedRules,
      (if waits r.rhs[0]? then forwardAt G value columns k (.predicted r k) else 0)
        = ∑ s ∈ kernel columns k, forwardAt G value columns k s
          * if waits r.rhs[0]? then cornerOf G value s r.lhs * r.probability else 0 := by
    intro r hr
    rw [forwardAt_predicted hG hvalue h k (hG.mem_usedRules.mp hr), demand, Finset.sum_mul]
    split
    · simp only [mul_assoc]
    · simp only [mul_zero, Finset.sum_const_zero]
  have hkernel : (stateSet columns k).filter IsKernel = kernel columns k := rfl
  rw [← Finset.sum_filter_add_sum_filter_not _ IsKernel, hpredicted, hkernel,
    Finset.sum_congr rfl hcorner, Finset.sum_comm, ← Finset.sum_add_distrib]
  refine Finset.sum_congr rfl fun s _ => ?_
  rw [← Finset.mul_sum, mul_add, mul_ite, mul_one, mul_zero]

theorem cornerOf_of_not_mem (hG : G.Compiled solver) (hvalue : G.algebra.IsAdditive value)
    {s : State ℝ W} (hs : ∀ z, s.next? = some z → z ∉ G.names) (x : Category) :
    cornerOf G value s x = 0 := by
  unfold cornerOf
  split
  · rfl
  · rename_i z hz
    rw [hG.leftCornerScore_of_not_mem (Or.inl (hs z hz)), hvalue.zero]

/-- **What waits for a category** is all that calls for it. -/
theorem Run.sum_next (hG : G.Compiled solver) (hsolver : solver.IsExact)
    (hvalue : G.algebra.IsAdditive value) (h : Run G goal tokens columns) (k : Nat) {x : Category}
    (hx : x ∈ G.names) :
    (∑ s ∈ stateSet columns k, if s.next? = some x then forwardAt G value columns k s else 0)
      = demand G value columns k x := by
  rw [h.sum_waiting hG hvalue k (· = some x), demand]
  refine Finset.sum_congr rfl fun s _ => congrArg _ ?_
  -- a state that waits for a name gives the equation of left corners, any other one gives zero on
  -- both sides
  by_cases hname : ∃ z, s.next? = some z ∧ z ∈ G.names
  · obtain ⟨z, hnext, hz⟩ := hname
    simp only [cornerOf_of_next hnext, hnext, Option.some.injEq]
    exact (leftCornerScore_eq hG hsolver hvalue hz hx).2.symm
  · have hno : ∀ z, s.next? = some z → z ∉ G.names := fun z hz hmem => hname ⟨z, hz, hmem⟩
    simp only [cornerOf_of_not_mem hG hvalue hno, zero_mul, ite_self,
      Finset.sum_const_zero, add_zero]
    exact if_neg fun hnext => hno x hnext hx

/-- **Prediction hands everything on**: what waits for terminals in a column is what the incomplete
states of its kernel have. -/
theorem Run.sum_terminal (hG : G.Compiled solver) (hsolver : solver.IsExact)
    (hvalue : G.algebra.IsAdditive value)
    (hsum : ∀ x ∈ G.names, (∑ r ∈ G.usedRules, if r.lhs = x then r.probability else 0) = 1)
    (h : Run G goal tokens columns) (k : Nat) :
    (∑ s ∈ stateSet columns k,
        if s.next?.any G.isTerminal = true then forwardAt G value columns k s else 0)
      = ∑ s ∈ kernel columns k, if s.next? ≠ none then forwardAt G value columns k s else 0 := by
  rw [h.sum_waiting hG hvalue k (fun next => next.any G.isTerminal = true)]
  refine Finset.sum_congr rfl fun s hs => ?_
  have hite : (if s.next? ≠ none then forwardAt G value columns k s else 0)
      = forwardAt G value columns k s * if s.next? ≠ none then 1 else 0 := by
    rw [mul_ite, mul_one, mul_zero]
  rw [hite]
  refine congrArg _ ?_
  cases hnext : s.next? with
  | none =>
    have hno : ∀ z, s.next? = some z → z ∉ G.names := fun z hz => by
      rw [hnext] at hz
      cases hz
    simp [cornerOf_of_not_mem hG hvalue hno]
  | some z =>
    rw [if_pos (Option.some_ne_none z), Option.any_some]
    -- a state that waits for a terminal counts itself, one that waits for a name counts its left
    -- corners
    by_cases hz : z ∈ G.names
    · simp only [cornerOf_of_next hnext]
      rw [if_neg (hG.not_isTerminal_of_mem hz), zero_add]
      exact sum_first_terminal hG hsolver hvalue hsum hz
    · have hno : ∀ z', s.next? = some z' → z' ∉ G.names := fun z' hz' => by
        rw [hnext] at hz'
        cases hz'
        exact hz
      have hfits := h.fits_of_mem hG (Finset.mem_filter.mp hs).1
      have hstart : z ≠ .start := by
        rintro rfl
        exact hfits.rule.start_not_mem hG h.goal_ne (List.mem_of_getElem? hnext)
      have hterm := hG.isTerminal_of_not_mem hstart hz
      simp [cornerOf_of_not_mem hG hvalue hno, hterm]

end Prediction

/-! ## Scanning and completion -/

section Completion

variable {part : Cell ℝ W → W}

/-- What a scanned column amounts to is what took the token. -/
theorem Scanned.sum_amount (hG : G.Compiled solver) (hvalue : G.algebra.IsAdditive value)
    (hpart : IsScore G.algebra part) {k : Nat} {token : Payload} {prev base : Column ℝ W}
    (hprev : Shaped G goal k prev) (h : Scanned G goal k token prev base) :
    ∑ t ∈ base.states.toFinset, amount G.algebra value part base t
      = ∑ s ∈ prev.states.toFinset,
          if Takes G token s then amount G.algebra value part prev s else 0 := by
  have hcell : ∀ {s}, s ∈ prev.states.toFinset → ∃ c ∈ prev, c.state = s :=
    fun hs => mem_states.mp (List.mem_toFinset.mp hs)
  rw [← Finset.sum_filter]
  -- moving over the token is a bijection from the states that take it
  refine (Finset.sum_nbij (fun s => s.advance (k + 1)) ?_ ?_ ?_ ?_).symm
  · intro s hs
    obtain ⟨hs, htakes⟩ := Finset.mem_filter.mp hs
    obtain ⟨c, hc, rfl⟩ := hcell hs
    exact List.mem_toFinset.mpr (mem_states.mpr ⟨_, (h.mem _).mpr ⟨c, hc, htakes, rfl⟩, rfl⟩)
  · intro s hs s' hs' heq
    obtain ⟨c, hc, rfl⟩ := hcell (Finset.mem_filter.mp hs).1
    obtain ⟨c', hc', rfl⟩ := hcell (Finset.mem_filter.mp hs').1
    exact State.advance_inj (by rw [(hprev.fits c hc).position, (hprev.fits c' hc').position]) heq
  · intro t ht
    obtain ⟨c, hc, rfl⟩ := mem_states.mp (List.mem_toFinset.mp ht)
    obtain ⟨cell, hcell, htakes, rfl⟩ := (h.mem c).mp hc
    exact ⟨cell.state, Finset.mem_coe.mpr (Finset.mem_filter.mpr
      ⟨List.mem_toFinset.mpr (mem_states.mpr ⟨cell, hcell, rfl⟩), htakes⟩), rfl⟩
  · intro s hs
    obtain ⟨hs, htakes⟩ := Finset.mem_filter.mp hs
    obtain ⟨c, hc, rfl⟩ := hcell hs
    have hfits := hprev.fits c hc
    rw [h.amount_eq hG hvalue hpart hprev hfits.rule hfits.position, if_pos htakes]

/-- What a filled column amounts to is what was there, and what has moved in. -/
theorem Filled.sum_amount (hG : G.Compiled solver) (hvalue : G.algebra.IsAdditive value)
    (hpart : IsScore G.algebra part) {k : Nat} {base col : Column ℝ W} {log : List (Move ℝ W)}
    (hbase : Shaped G goal k base) (h : Filled G goal k base log col) :
    ∑ t ∈ col.states.toFinset, amount G.algebra value part col t
      = ∑ t ∈ base.states.toFinset, amount G.algebra value part base t
        + (log.map fun m => value (part m.cell) * value m.factor).sum := by
  have hrule : ∀ t ∈ col.states.toFinset, ChartRule G goal t.rule := by
    intro t ht
    obtain ⟨c, hc, rfl⟩ := Parser.mem_states.mp (List.mem_toFinset.mp ht)
    exact (h.shaped.fits c hc).rule
  rw [Finset.sum_congr rfl fun t ht => h.amount_eq hvalue hpart (hrule t ht),
    Finset.sum_add_distrib]
  congr 1
  · refine (Finset.sum_subset (fun t ht => ?_) fun t ht hout => ?_).symm
    · exact List.mem_toFinset.mpr ((h.mem_states t).mpr (Or.inl (List.mem_toFinset.mp ht)))
    · exact amount_of_not_mem hG hvalue hpart hbase (hrule t ht)
        fun hmem => hout (List.mem_toFinset.mpr hmem)
  · rw [sum_sum_map]
    congr 1
    refine List.map_congr_left fun m hm => ?_
    rw [Finset.sum_ite_eq, if_pos]
    exact List.mem_toFinset.mpr ((h.mem_states _).mpr (Or.inr ⟨m, hm, rfl⟩))

/-- What complete phrases from one position bring along: to every category whose unit chains lead to
a phrase, what calls for it there. -/
noncomputable def supply (G : Grammar ℝ W) (value : W → ℝ) (columns : List (Column ℝ W))
    (l k : Nat) : ℝ :=
  ∑ r ∈ G.plainRules, (∑ x ∈ G.names.toFinset,
    value (G.unitScore x r.lhs) * demand G value columns l x)
      * innerAt G value columns k (done k r l)

/-- Prediction leaves alone what was scanned and completed. -/
theorem Grown.sum_kernel (hG : G.Compiled solver) (hvalue : G.algebra.IsAdditive value)
    {past : List (Column ℝ W)} {k : Nat} {token : Payload} {base mid : Column ℝ W}
    {order : List (State ℝ W)}
    (h : Grown G goal past k token base mid (pastColumn columns (k + 1)) order) :
    ∑ t ∈ kernel columns (k + 1), forwardAt G value columns (k + 1) t
      = ∑ t ∈ mid.states.toFinset, amount G.algebra value Cell.forward mid t := by
  have hstates := states_eq_of_core_eq h.core
  have hkernel : kernel columns (k + 1) = mid.states.toFinset := by
    rw [← hstates]
    refine h.predicted.kernel_eq hG fun c hc hno => h.kernel c.state ?_ hno.1
    rw [← hstates]
    exact List.mem_map_of_mem hc
  rw [hkernel]
  refine Finset.sum_congr rfl fun t ht => ?_
  obtain ⟨c, hc, rfl⟩ := mem_states.mp (List.mem_toFinset.mp ht)
  exact h.amount_mid hG hvalue (isScore_forward _) (h.completed.filled.shaped.fits c hc).rule
    (h.kernel _ (mem_states.mpr ⟨c, hc, rfl⟩))

/-- What one complete phrase brings along. -/
theorem Run.sum_moves_forward (hG : G.Compiled solver) (hsolver : solver.IsExact)
    (hvalue : G.algebra.IsAdditive value) (h : Run G goal tokens columns) {k : Nat} {d : State ℝ W}
    (hlt : d.origin < k) (inner : W) :
    ((moves G (columns.take k) d inner).map fun m => value m.cell.forward * value m.factor).sum
      = (∑ x ∈ G.names.toFinset, value (G.unitScore x d.rule.lhs)
          * demand G value columns d.origin x) * value inner := by
  have hsum : ((moves G (columns.take k) d inner).map fun m =>
      1 * (value m.cell.forward * value m.factor)).sum = _ :=
    sum_moves hG hvalue (h.pastShaped_take hG k) d inner fun _ => 1
  simp only [one_mul, pastColumn_take hlt] at hsum
  rw [hsum]
  refine congrArg (· * _) (Finset.sum_congr rfl fun x hx => congrArg _ ?_)
  exact h.sum_next hG hsolver hvalue d.origin (List.mem_toFinset.mp hx)

/-- **What a kernel has** is what was scanned, and what complete phrases brought along. -/
theorem Run.sum_kernel (hG : G.Compiled solver) (hsolver : solver.IsExact)
    (hvalue : G.algebra.IsAdditive value) (h : Run G goal tokens columns) {k : Nat}
    {token : Payload} (hk : tokens[k]? = some token) :
    ∑ t ∈ kernel columns (k + 1), forwardAt G value columns (k + 1) t
      = (∑ s ∈ stateSet columns k, if Takes G token s then forwardAt G value columns k s else 0)
        + ∑ l ∈ Finset.range (k + 1), supply G value columns l (k + 1) := by
  obtain ⟨base, mid, order, hgrown⟩ := h.grown hG hk
  have hpast : PastShaped G goal (columns.take (k + 1)) := h.pastShaped_take hG (k + 1)
  have hmoves : ∀ d ∈ order,
      ((moves G (columns.take (k + 1)) d (mid.inner G.algebra d)).map fun m =>
          value m.cell.forward * value m.factor).sum
        = (∑ x ∈ G.names.toFinset, value (G.unitScore x d.rule.lhs)
            * demand G value columns d.origin x) * amount G.algebra value Cell.inner mid d := by
    intro d hd
    rw [h.sum_moves_forward hG hsolver hvalue (hgrown.completed.mem_order_iff.mp hd).2.1,
      Column.inner_eq_cell]
    rfl
  rw [hgrown.sum_kernel hG hvalue, hgrown.completed.filled.sum_amount hG hvalue
    (isScore_forward _) hgrown.scanned.shaped, hgrown.scanned.sum_amount hG hvalue
    (isScore_forward _) (hpast k), sum_map_flatMap, List.map_congr_left hmoves,
    hgrown.completed.sum_order hG hvalue fun l r => ∑ x ∈ G.names.toFinset,
      value (G.unitScore x r.lhs) * demand G value columns l x]
  · rw [pastColumn_take (Nat.lt_succ_self k)]
    refine congrArg _ (Finset.sum_congr rfl fun l _ =>
      Finset.sum_congr rfl fun r hr => congrArg _ ?_)
    obtain ⟨⟨y, q, hq, rfl⟩, _⟩ := (mem_plainRules hG).mp hr
    refine (hgrown.amount_mid hG hvalue (isScore_inner _) (s := done (k + 1) q.rule l) (.used hq)
      ?_).symm
    exact fun hdot => (hG.isSound hq).rhs_ne (List.length_eq_zero_iff.mp hdot)
  · intro l r hout
    simp only [hG.unitScore_of_not_mem (Or.inr hout), hvalue.zero, zero_mul, Finset.sum_const_zero]

/-- A complete state of any rule, by lockstep. -/
theorem forwardAt_done (hG : G.Compiled solver) (hvalue : G.algebra.IsAdditive value)
    (h : Run G goal tokens columns) (l k : Nat) {r : Rule ℝ W} (hr : G.Uses r) :
    forwardAt G value columns k (done k r l)
      = demand G value columns l r.lhs * innerAt G value columns k (done k r l) := by
  have hpos := hG.probability_pos_of_uses hr
  have hpredicted := forwardAt_predicted hG hvalue h l hr
  obtain ⟨x, q, hq, rfl⟩ := hr
  have hlockstep := h.lockstep hG hvalue l q.rule.rhs.length k (.used hq)
  rw [value_weight_of_uses hG hvalue ⟨x, q, hq, rfl⟩] at hlockstep
  refine mul_right_cancel₀ hpos.ne' (hlockstep.trans ?_)
  rw [mul_right_comm, ← hpredicted]
  rfl

/-- A complete state of a unit rule, by the phrases that it was completed over. -/
theorem forwardAt_done_unit (hG : G.Compiled solver) (hvalue : G.algebra.IsAdditive value)
    (h : Run G goal tokens columns) {l k : Nat} {token : Payload} (hk : tokens[k]? = some token)
    (hl : l ≤ k) {r : Rule ℝ W} (hr : G.Uses r) (hunit : G.isUnit r = true) :
    forwardAt G value columns (k + 1) (done (k + 1) r l)
      = demand G value columns l r.lhs * r.probability * ∑ r' ∈ G.plainRules,
        value (G.unitScore (r.rhs.headD .start) r'.lhs)
          * innerAt G value columns (k + 1) (done (k + 1) r' l) := by
  have hpredicted := forwardAt_predicted hG hvalue h l hr
  obtain ⟨x, q, hq, rfl⟩ := hr
  obtain ⟨y, hrhs, hy⟩ := isUnit_iff.mp hunit
  have hterm : ¬ (G.isTerminal y = true ∧ y.accepts token = .ok true) :=
    fun hterm => hG.not_isTerminal_of_mem (hG.isNonterminal_iff.mp hy) hterm.1
  have hflow := h.amount_succ hG hvalue (isScore_forward _) hk (i := l) (n := 0) (.used hq)
    (by rw [hrhs]; rfl)
  rw [if_neg hterm, Finset.sum_eq_single l] at hflow
  · have hstate : done (k + 1) q.rule l = ⟨l, 0 + 1, k + 1, q.rule⟩ := by
      unfold done
      rw [hrhs]
      rfl
    rw [hstate, hrhs, ← hpredicted]
    exact hflow.trans (zero_add _)
  · -- the rule begins where its phrase does
    intro l' _ hne
    rw [h.amount_of_not_fits hG hvalue (isScore_forward _) (s := ⟨l, 0, l', q.rule⟩) (.used hq),
      zero_mul]
    exact fun hfits => hne (hfits.origin_eq rfl).symm
  · intro hout
    exact absurd (Finset.mem_range.mpr (Nat.lt_succ_of_le hl)) hout

theorem filter_not_isUnit (hG : G.Compiled solver) :
    G.usedRules.filter (fun r => ¬ G.isUnit r = true) = G.plainRules := by
  ext r
  rw [Finset.mem_filter, mem_plainRules hG, hG.mem_usedRules, Bool.not_eq_true]

/-- **What complete states have** is what complete phrases bring along. -/
theorem Run.sum_done (hG : G.Compiled solver) (hsolver : solver.IsExact)
    (hvalue : G.algebra.IsAdditive value) (h : Run G goal tokens columns) {l k : Nat}
    {token : Payload} (hk : tokens[k]? = some token) (hl : l ≤ k) :
    ∑ r ∈ G.usedRules, forwardAt G value columns (k + 1) (done (k + 1) r l)
      = supply G value columns l (k + 1) := by
  -- unit chains are split at their first rule, which leaves the phrase itself or a complete unit
  -- rule
  have hunit : ∀ r ∈ G.usedRules.filter (fun r => G.isUnit r = true),
      forwardAt G value columns (k + 1) (done (k + 1) r l) = ∑ r' ∈ G.plainRules,
        demand G value columns l r.lhs * r.probability
          * value (G.unitScore (r.rhs.headD .start) r'.lhs)
          * innerAt G value columns (k + 1) (done (k + 1) r' l) := by
    intro r hr
    obtain ⟨hr, hunit⟩ := Finset.mem_filter.mp hr
    rw [forwardAt_done_unit hG hvalue h hk hl (hG.mem_usedRules.mp hr) hunit, Finset.mul_sum]
    simp only [mul_assoc]
  have hsupply : ∀ r' ∈ G.plainRules, (∑ x ∈ G.names.toFinset,
      value (G.unitScore x r'.lhs) * demand G value columns l x)
        * innerAt G value columns (k + 1) (done (k + 1) r' l)
      = (∑ r ∈ G.usedRules.filter (fun r => G.isUnit r = true),
          demand G value columns l r.lhs * r.probability
            * value (G.unitScore (r.rhs.headD .start) r'.lhs)
            * innerAt G value columns (k + 1) (done (k + 1) r' l))
        + forwardAt G value columns (k + 1) (done (k + 1) r' l) := by
    intro r' hr'
    have huses := ((mem_plainRules hG).mp hr').1
    rw [sum_unitScore hG hsolver hvalue (hG.mem_names_of_uses huses), add_mul,
      forwardAt_done hG hvalue h l (k + 1) huses, ← Finset.sum_filter, Finset.sum_mul, add_comm]
  rw [supply, Finset.sum_congr rfl hsupply, Finset.sum_add_distrib,
    ← Finset.sum_filter_add_sum_filter_not G.usedRules fun r => G.isUnit r = true,
    filter_not_isUnit hG, Finset.sum_congr rfl hunit, Finset.sum_comm]

end Completion

/-! ## Balance -/

section Balance

/-- A complete state that is not there amounts to nothing. -/
theorem Run.amount_done_of_not_mem (hG : G.Compiled solver) (hvalue : G.algebra.IsAdditive value)
    {part : Cell ℝ W → W} (hpart : IsScore G.algebra part) (h : Run G goal tokens columns)
    {k l : Nat} {r : Rule ℝ W} (hr : G.Uses r) (hout : done k r l ∉ statesAt columns k) :
    amount G.algebra value part (pastColumn columns k) (done k r l) = 0 := by
  obtain ⟨x, q, hq, rfl⟩ := hr
  exact amount_of_not_mem hG hvalue hpart (h.pastShaped hG k) (s := done k q.rule l) (.used hq) hout

/-- The complete states of a kernel, those of the start symbol apart, by their rules and origins.
What is summed over them is nothing for a state that is not there. -/
theorem Run.sum_complete (hG : G.Compiled solver) (h : Run G goal tokens columns) (k : Nat)
    {f : State ℝ W → ℝ}
    (hf : ∀ {r l}, G.Uses r → done k r l ∉ statesAt columns k → f (done k r l) = 0) :
    (∑ t ∈ kernel columns k, if t.next? = none ∧ t.rule.lhs ≠ .start then f t else 0)
      = ∑ l ∈ Finset.range k, ∑ r ∈ G.usedRules, f (done k r l) := by
  -- such a state is told apart by its origin and its rule
  have hdone : ∀ {t},
      t ∈ (kernel columns k).filter (fun t => t.next? = none ∧ t.rule.lhs ≠ .start) →
      t.origin < k ∧ G.Uses t.rule ∧ t = done k t.rule t.origin := by
    intro t ht
    obtain ⟨ht, hnext, hlhs⟩ := Finset.mem_filter.mp ht
    obtain ⟨ht, hkernel⟩ := Finset.mem_filter.mp ht
    have hfits := h.fits_of_mem hG ht
    obtain ⟨q, hq, hrule⟩ := hfits.rule.uses hG hlhs
    have hdot := hfits.dot_eq_of_isComplete ((State.isComplete_iff_next?_eq_none _).mpr hnext)
    refine ⟨hfits.origin_lt (Nat.pos_of_ne_zero fun hzero => hkernel ⟨hzero, hlhs⟩),
      ⟨_, q, hq, hrule⟩, ?_⟩
    unfold done
    rw [← hdot, ← hfits.position]
  rw [← Finset.sum_filter, ← Finset.sum_product']
  refine Finset.sum_of_injOn (fun t => (t.origin, t.rule)) ?_ ?_ ?_ ?_
  · intro t ht t' ht' heq
    have horigin : t.origin = t'.origin := congrArg Prod.fst heq
    have hrule : t.rule = t'.rule := congrArg Prod.snd heq
    rw [(hdone ht).2.2, (hdone ht').2.2, horigin, hrule]
  · intro t ht
    obtain ⟨hlt, hr, _⟩ := hdone ht
    exact Finset.mem_product.mpr ⟨Finset.mem_range.mpr hlt, hG.mem_usedRules.mpr hr⟩
  · rintro ⟨l, r⟩ hmem hout
    obtain ⟨x, q, hq, rfl⟩ := hG.mem_usedRules.mp (Finset.mem_product.mp hmem).2
    refine hf ⟨x, q, hq, rfl⟩ fun hin =>
      hout ⟨done k q.rule l, Finset.mem_coe.mpr (Finset.mem_filter.mpr ⟨?_, ?_⟩), rfl⟩
    · refine Finset.mem_filter.mpr ⟨List.mem_toFinset.mpr hin, fun hno => ?_⟩
      exact (hG.isSound hq).rhs_ne (List.length_eq_zero_iff.mp hno.1)
    · exact ⟨List.getElem?_eq_none (Nat.le_refl _), lhs_ne_start_of_used hG hq⟩
  · intro t ht
    show _ = f (done k t.rule t.origin)
    rw [← (hdone ht).2.2]

/-- **Completion hands everything on**: what a kernel has in incomplete states and in complete ones
of the start symbol is what took the token. -/
theorem Run.sum_open (hG : G.Compiled solver) (hsolver : solver.IsExact)
    (hvalue : G.algebra.IsAdditive value) (h : Run G goal tokens columns) {k : Nat}
    {token : Payload} (hk : tokens[k]? = some token) :
    (∑ t ∈ kernel columns (k + 1),
        if t.next? ≠ none then forwardAt G value columns (k + 1) t else 0)
      + (∑ t ∈ kernel columns (k + 1), if t.next? = none ∧ t.rule.lhs = .start then
          forwardAt G value columns (k + 1) t else 0)
      = ∑ s ∈ stateSet columns k, if Takes G token s then forwardAt G value columns k s else 0 := by
  have hkernel := h.sum_kernel hG hsolver hvalue hk
  have hcomplete := h.sum_complete hG (k + 1) (f := forwardAt G value columns (k + 1))
    (h.amount_done_of_not_mem hG hvalue (isScore_forward _))
  have hsupply : ∀ l ∈ Finset.range (k + 1),
      ∑ r ∈ G.usedRules, forwardAt G value columns (k + 1) (done (k + 1) r l)
        = supply G value columns l (k + 1) := fun l hl =>
    h.sum_done hG hsolver hvalue hk (Nat.le_of_lt_succ (Finset.mem_range.mp hl))
  have hsplit : ∑ t ∈ kernel columns (k + 1), forwardAt G value columns (k + 1) t
      = (∑ t ∈ kernel columns (k + 1),
          if t.next? ≠ none then forwardAt G value columns (k + 1) t else 0)
        + (∑ t ∈ kernel columns (k + 1), if t.next? = none ∧ t.rule.lhs = .start then
            forwardAt G value columns (k + 1) t else 0)
        + ∑ t ∈ kernel columns (k + 1), if t.next? = none ∧ t.rule.lhs ≠ .start then
            forwardAt G value columns (k + 1) t else 0 := by
    rw [← Finset.sum_add_distrib, ← Finset.sum_add_distrib]
    refine Finset.sum_congr rfl fun t _ => ?_
    by_cases hnext : t.next? = none <;> by_cases hlhs : t.rule.lhs = .start <;> simp [hnext, hlhs]
  -- what the complete states have is what phrases brought along, and cancels
  rw [hcomplete, Finset.sum_congr rfl hsupply] at hsplit
  exact add_right_cancel (hsplit.symm.trans hkernel)

/-- The first column starts from the seed of the start symbol. -/
theorem Run.kernel_zero (hG : G.Compiled solver) (h : Run G goal tokens columns)
    (hnull : G.isNullable goal = false) :
    kernel columns 0 = {.predicted (startRule G.algebra goal) 0} := by
  obtain ⟨base, hseeded, hpredicted⟩ := h.seeded hG
  rw [hpredicted.kernel_eq hG fun c hc hno => hno.2 (hseeded.lhs_eq hc)]
  ext s
  rw [List.mem_toFinset, mem_states, Finset.mem_singleton]
  constructor
  · rintro ⟨c, hc, rfl⟩
    rcases (hseeded.mem c).mp hc with rfl | ⟨hempty, _⟩
    · rfl
    · rw [hnull] at hempty
      cases hempty
  · rintro rfl
    exact ⟨_, (hseeded.mem _).mpr (Or.inl rfl), rfl⟩

/-- The seed of the start symbol has a forward score of one. -/
theorem Run.forwardAt_start (hG : G.Compiled solver) (hvalue : G.algebra.IsAdditive value)
    (h : Run G goal tokens columns) :
    forwardAt G value columns 0 (.predicted (startRule G.algebra goal) 0) = 1 := by
  obtain ⟨base, hseeded, hpredicted⟩ := h.seeded hG
  have hmem := hpredicted.keeps _ ((hseeded.mem _).mpr (Or.inl rfl))
  refine (amount_of_mem hpredicted.shaped hmem).trans ?_
  exact (hvalue.value_zero_add _).trans hvalue.one

/-- The last symbol that a state has found is a terminal. -/
def hasRead (G : Grammar ℝ W) (s : State ℝ W) : Bool :=
  decide (0 < s.dot) && (s.rule.rhs[s.dot - 1]?).any G.isTerminal

/-- What has read something has the score that it was scanned with. -/
theorem Grown.forwardAt_of_hasRead (hG : G.Compiled solver) (hvalue : G.algebra.IsAdditive value)
    {past : List (Column ℝ W)} (hpast : PastShaped G goal past) {k : Nat} {token : Payload}
    {base mid : Column ℝ W} {order : List (State ℝ W)}
    (h : Grown G goal past k token base mid (pastColumn columns (k + 1)) order) {t : State ℝ W}
    (hfits : Fits G goal (k + 1) t) (hread : hasRead G t = true) :
    forwardAt G value columns (k + 1) t = amount G.algebra value Cell.forward base t := by
  obtain ⟨i, n, position, r⟩ := t
  obtain rfl : position = k + 1 := hfits.position
  obtain ⟨hdot, hterm⟩ := Bool.and_eq_true_iff.mp hread
  obtain ⟨n, rfl⟩ : ∃ m, n = m + 1 := ⟨n - 1, by
    have hpos : 0 < n := of_decide_eq_true hdot
    omega⟩
  obtain ⟨x, hx, hterm⟩ := (Option.any_eq_true _ _).mp hterm
  have hx : r.rhs[n]? = some x := hx
  have hout : x ∉ G.names := fun hmem => hG.not_isTerminal_of_mem hmem hterm
  refine (h.amount_mid hG hvalue (isScore_forward _) (s := ⟨i, n + 1, k + 1, r⟩) hfits.rule
    (Nat.succ_ne_zero n)).trans ?_
  -- no phrase leads over a terminal
  rw [h.completed.amount_eq hG hvalue (isScore_forward _) hpast hfits.rule hx]
  simp only [hG.unitScore_of_not_mem (Or.inl hout), hvalue.zero, zero_mul, Finset.sum_const_zero,
    mul_zero, add_zero]

/-- What was scanned is still there, and has read something. -/
theorem Grown.mem_of_mem_base {past : List (Column ℝ W)} {k : Nat} {token : Payload}
    {base mid col : Column ℝ W} {order : List (State ℝ W)}
    (h : Grown G goal past k token base mid col order) {t : State ℝ W} (ht : t ∈ base.states) :
    t ∈ col.states ∧ hasRead G t = true := by
  constructor
  · have hmid : t ∈ mid.states := (h.completed.filled.mem_states t).mpr (Or.inl ht)
    rw [← states_eq_of_core_eq h.core] at hmid
    obtain ⟨c, hc, rfl⟩ := mem_states.mp hmid
    exact mem_states.mpr ⟨c, h.predicted.keeps c hc, rfl⟩
  · obtain ⟨c, hc, rfl⟩ := mem_states.mp ht
    obtain ⟨cell, _, ⟨x, hx, hterm, _⟩, rfl⟩ := (h.scanned.mem c).mp hc
    have hx : cell.state.rule.rhs[cell.state.dot]? = some x := hx
    simp [hasRead, shifted, State.advance, hx, hterm]

/-- Nothing is added to what has been scanned. -/
theorem Run.sum_read (hG : G.Compiled solver) (hvalue : G.algebra.IsAdditive value)
    (h : Run G goal tokens columns) {k : Nat} {token : Payload} (hk : tokens[k]? = some token) :
    (∑ t ∈ stateSet columns (k + 1),
        if hasRead G t = true then forwardAt G value columns (k + 1) t else 0)
      = ∑ s ∈ stateSet columns k, if Takes G token s then forwardAt G value columns k s else 0 := by
  obtain ⟨base, mid, order, hgrown⟩ := h.grown hG hk
  have hpast : PastShaped G goal (columns.take (k + 1)) := h.pastShaped_take hG (k + 1)
  have hscanned := hgrown.scanned.sum_amount hG hvalue (isScore_forward _) (hpast k)
  rw [pastColumn_take (Nat.lt_succ_self k)] at hscanned
  have hread : ∀ t ∈ (stateSet columns (k + 1)).filter (fun t => hasRead G t = true),
      forwardAt G value columns (k + 1) t = amount G.algebra value Cell.forward base t := by
    intro t ht
    obtain ⟨ht, hread⟩ := Finset.mem_filter.mp ht
    exact hgrown.forwardAt_of_hasRead hG hvalue hpast (h.fits_of_mem hG ht) hread
  rw [← Finset.sum_filter, Finset.sum_congr rfl hread]
  refine Eq.trans (Finset.sum_subset (fun t ht => ?_) fun t ht hout => ?_).symm hscanned
  · obtain ⟨hmem, hread⟩ := hgrown.mem_of_mem_base (List.mem_toFinset.mp ht)
    exact Finset.mem_filter.mpr ⟨List.mem_toFinset.mpr hmem, hread⟩
  · have hfits := h.fits_of_mem hG (Finset.mem_filter.mp ht).1
    exact amount_of_not_mem hG hvalue (isScore_forward _) hgrown.scanned.shaped hfits.rule
      fun hmem => hout (List.mem_toFinset.mpr hmem)

end Balance

/-! ## Parsers -/

section Parsers

variable {p : Parser ℝ W}

theorem Fed.prefixScore_of_nil (hvalue : G.algebra.IsAdditive value) (h : Fed G goal [] p) :
    value p.prefixScore = 1 := by
  generalize htokens : ([] : List Payload) = tokens at h
  cases h with
  | create h =>
    obtain ⟨_, column, _, rfl⟩ := create_eq_ok h
    exact hvalue.one
  | step => exact absurd htokens.symm (List.append_ne_nil_of_right_ne_nil _ (List.cons_ne_nil _ _))

/-- **The prefix score after a token** is the forward score of all states that take it. -/
theorem Fed.prefixScore_of_step (hG : G.Compiled solver) (hvalue : G.algebra.IsAdditive value)
    (h : Fed G goal tokens p) {token : Payload} {p' : Parser ℝ W}
    (hstep : p.step token = (p', .ok true)) :
    value p'.prefixScore = ∑ s ∈ stateSet p.chart.columns tokens.length,
      if Takes G token s then forwardAt G value p.chart.columns tokens.length s else 0 := by
  have hholds := h.holds
  have hshaped := hholds.run.pastShaped hG tokens.length
  obtain ⟨column, scanned, hmeets, rfl⟩ := eq_moved_of_step hstep
  have hnext : p.chart.column (tokens.length + 1) = [] :=
    pastColumn_of_ge (Nat.le_of_eq hholds.run.length)
  unfold meets at hmeets
  rw [hholds.grammar, hholds.position, hnext] at hmeets
  obtain ⟨hscanned, rfl⟩ := scanned_of_scan hshaped hmeets
  have hforward : column.states.map (value ∘ column.forward G.algebra)
      = column.states.map (amount G.algebra value Cell.forward column) := by
    refine List.map_congr_left fun s _ => ?_
    rw [Function.comp_apply, Column.forward_eq_cell]
    rfl
  show value (p.grammar.algebra.sum (column.states.map (column.forward p.grammar.algebra))) = _
  rw [hholds.grammar, hvalue.value_sum, List.map_map, hforward,
    ← List.sum_toFinset _ hscanned.shaped.nodup_states]
  exact hscanned.sum_amount hG hvalue (isScore_forward _) hshaped

/-- What the cells of a parser's column contribute. -/
theorem Holds.sum_cells (hG : G.Compiled solver) (h : Holds G goal tokens p)
    (test : State ℝ W → Bool) :
    (((p.chart.column p.position).filter fun c => test c.state).map fun c => value c.forward).sum
      = ∑ s ∈ stateSet p.chart.columns tokens.length,
          if test s = true then forwardAt G value p.chart.columns tokens.length s else 0 := by
  have hshaped := h.run.pastShaped hG tokens.length
  have hfilter := sum_map_filter (fun c : Cell ℝ W => test c.state = true)
    (fun c => value c.forward) (pastColumn p.chart.columns tokens.length)
  simp only [Bool.decide_eq_true] at hfilter
  rw [h.position]
  exact hfilter.trans (hshaped.sum_cells fun s v => if test s = true then v else 0)

/-- What the final states of a parser contribute. -/
theorem Holds.sum_finalStates (hG : G.Compiled solver) (h : Holds G goal tokens p)
    (f : State ℝ W → ℝ) :
    ((finalStates p.chart p.position).map f).sum
      = ∑ t ∈ kernel p.chart.columns tokens.length,
          if t.next? = none ∧ t.rule.lhs = .start then f t else 0 := by
  have hshaped := h.run.pastShaped hG tokens.length
  have hnodup : (finalStates p.chart tokens.length).Nodup := by
    unfold finalStates Chart.completed
    exact (hshaped.nodup_states.filter _).filter _
  rw [h.position, ← List.sum_toFinset _ hnodup, ← Finset.sum_filter]
  refine Finset.sum_congr ?_ fun _ _ => rfl
  ext t
  rw [List.mem_toFinset, mem_finalStates, Finset.mem_filter, kernel, Finset.mem_filter,
    List.mem_toFinset, State.isComplete_iff_next?_eq_none]
  constructor
  · rintro ⟨ht, hnext, hlhs, _⟩
    exact ⟨⟨ht, fun hno => hno.2 hlhs⟩, hnext, hlhs⟩
  · rintro ⟨⟨ht, _⟩, hnext, hlhs⟩
    have hfits := h.run.fits_of_mem hG (List.mem_toFinset.mpr ht)
    exact ⟨ht, hnext, hlhs, hfits.start_origin hlhs⟩

/-- The scores that a chart has for the states at a parser's position. -/
theorem Holds.chart_scores (hG : G.Compiled solver) (h : Holds G goal tokens p) (value : W → ℝ)
    {s : State ℝ W} (hs : s ∈ stateSet p.chart.columns tokens.length) :
    value (p.chart.forward G.algebra s) = forwardAt G value p.chart.columns tokens.length s ∧
      value (p.chart.inner G.algebra s) = innerAt G value p.chart.columns tokens.length s := by
  unfold Chart.forward Chart.inner
  rw [(h.run.fits_of_mem hG hs).position, Column.forward_eq_cell, Column.inner_eq_cell]
  exact ⟨rfl, rfl⟩

/-- A column that a step leaves alone has the same states and scores. -/
theorem forwardAt_of_step (G : Grammar ℝ W) (value : W → ℝ) {token : Payload} {p' : Parser ℝ W}
    {answer : Except Pattern.Error Bool} (hstep : p.step token = (p', answer)) {k : Nat}
    (hk : k ≤ p.position) :
    stateSet p'.chart.columns k = stateSet p.chart.columns k ∧
      forwardAt G value p'.chart.columns k = forwardAt G value p.chart.columns k := by
  have hcolumn : pastColumn p'.chart.columns k = pastColumn p.chart.columns k := by
    have hfrozen := column_step_of_le p token hk
    rwa [hstep] at hfrozen
  constructor
  · unfold stateSet statesAt
    rw [hcolumn]
  · funext s
    unfold forwardAt
    rw [hcolumn]

/-- **The balance of a parser**: what waits for terminals and what has completed the start symbol
make up the prefix score. -/
theorem Fed.balance (hG : G.Compiled solver) (hsolver : solver.IsExact)
    (hvalue : G.algebra.IsAdditive value) (hfree : G.IsEpsilonFree) (hproper : G.IsProper)
    (h : Fed G goal tokens p) :
    (∑ s ∈ stateSet p.chart.columns tokens.length, if s.next?.any G.isTerminal = true then
        forwardAt G value p.chart.columns tokens.length s else 0)
      + (∑ t ∈ kernel p.chart.columns tokens.length, if t.next? = none ∧ t.rule.lhs = .start then
          forwardAt G value p.chart.columns tokens.length t else 0)
      = value p.prefixScore := by
  rw [h.holds.run.sum_terminal hG hsolver hvalue (fun x => hproper.sum_usedRules hfree hG)]
  cases h with
  | create h =>
    have hfed : Fed G goal [] p := .create h
    have hrun := hfed.holds.run
    rw [hfed.prefixScore_of_nil hvalue, List.length_nil,
      hrun.kernel_zero hG (hfree.isNullable_eq hG goal), Finset.sum_singleton, Finset.sum_singleton,
      hrun.forwardAt_start hG hvalue, if_pos, if_neg, add_zero]
    · exact fun hno => absurd hno.1 (Option.some_ne_none goal)
    · exact Option.some_ne_none goal
  | @step before p₀ _ token hfed hstep =>
    have hrun := (Fed.step hfed hstep).holds.run
    have htoken : (before ++ [token])[before.length]? = some token := by simp
    rw [hfed.prefixScore_of_step hG hvalue hstep, List.length_append, List.length_singleton,
      hrun.sum_open hG hsolver hvalue htoken]
    obtain ⟨hstates, hforward⟩ := forwardAt_of_step G value hstep
      (Nat.le_of_eq hfed.holds.position.symm)
    rw [hstates, hforward]

/-- **Forward scores are conserved.** In a proper grammar without empty rules, with exact
arithmetic: after any tokens that a parser has taken, what waits for terminals and what has
completed the start symbol add up to the prefix score. That is one before the first token, and
behind every token it is what was scanned. -/
theorem forward_mass_is_conserved {A : ScoreAlgebra ℝ W} (hG : G.Built solver A)
    (hsolver : solver.IsExact) (hvalue : A.IsAdditive value) (hfree : G.IsEpsilonFree)
    (hproper : G.IsProper) (hfed : Fed G goal tokens p) :
    (((p.chart.column p.position).filter fun c => c.state.next?.any G.isTerminal).map
          fun c => value c.forward).sum
        + ((finalStates p.chart p.position).map fun s => value (p.chart.forward A s)).sum
      = value p.prefixScore ∧
    (p.position = 0 → value p.prefixScore = 1) ∧
    (0 < p.position → value p.prefixScore
      = (((p.chart.column p.position).filter fun c => hasRead G c.state).map
          fun c => value c.forward).sum) := by
  obtain ⟨hcompiled, rfl⟩ := hG.compiled
  have hholds := hfed.holds
  refine ⟨?_, fun hzero => ?_, fun hpos => ?_⟩
  · rw [hholds.sum_cells hcompiled fun s => s.next?.any G.isTerminal,
      hholds.sum_finalStates hcompiled, ← hfed.balance hcompiled hsolver hvalue hfree hproper]
    refine congrArg _ (Finset.sum_congr rfl fun t ht => ?_)
    rw [(hholds.chart_scores hcompiled value (Finset.mem_filter.mp ht).1).1]
  · rw [hholds.position] at hzero
    obtain rfl := List.length_eq_zero_iff.mp hzero
    exact hfed.prefixScore_of_nil hvalue
  · rw [hholds.sum_cells hcompiled (hasRead G)]
    cases hfed with
    | create h =>
      rw [hholds.position] at hpos
      exact absurd hpos (Nat.lt_irrefl 0)
    | @step before p₀ _ token hfed hstep =>
      have htoken : (before ++ [token])[before.length]? = some token := by simp
      rw [hfed.prefixScore_of_step hcompiled hvalue hstep, List.length_append,
        List.length_singleton, hholds.run.sum_read hcompiled hvalue htoken]
      obtain ⟨hstates, hforward⟩ := forwardAt_of_step G value hstep
        (Nat.le_of_eq hfed.holds.position.symm)
      rw [hstates, hforward]

theorem loop_forward_mass_is_conserved :
    ∃ G p, loopGrammar = .ok G ∧ Fed G (.name "S") [.text "a"] p ∧
      (((p.chart.column p.position).filter fun c => c.state.next?.any G.isTerminal).map
            fun c => c.forward).sum
          + ((finalStates p.chart p.position).map (p.chart.forward (linearScores ℝ))).sum
        = p.prefixScore := by
  obtain ⟨G, hG, hrules⟩ := exists_loopGrammar
  obtain ⟨p, hp, _⟩ := exists_fed_loopGrammar hG hrules
  have hbuilt := built_loopGrammar hG
  have hconserved := forward_mass_is_conserved hbuilt isExact_realSolver isAdditive_linearScores
    (isEpsilonFree_of_loopRules hrules) (isProper_of_loopRules hbuilt.compiled.1 hrules) hp
  exact ⟨G, p, hG, hp, hconserved.1⟩

end Parsers

end StochasticGrammar.Parser
