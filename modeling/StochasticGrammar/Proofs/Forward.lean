import StochasticGrammar.Proofs.Flow

/-!
# Forward scores

A predicted state receives its forward score from every kernel state of its column: that state's
own, times the summed left-corner chains from what it waits for, times the weight of the rule. From
there on it flows as the inner score does, so the two stay in a fixed ratio.

> `forward_predict`: what prediction adds to a state.

> `Run.lockstep`: forward and inner scores grow by the same factors.
-/

namespace StochasticGrammar

open scoped Classical

variable {K W : Type} [Field K] [LinearOrder K] [DecidableEq W] {solver : Solver K}
  {G : Grammar K W} {goal : Category} {value : W → K}

namespace Grammar

/-- The rules that the parser uses. -/
def usedRules (G : Grammar K W) : Finset (Rule K W) :=
  G.compiledRules.toFinset

namespace Compiled

theorem mem_usedRules (hG : G.Compiled solver) {r : Rule K W} : r ∈ G.usedRules ↔ G.Uses r := by
  unfold usedRules
  rw [List.mem_toFinset, hG.mem_compiledRules_iff_uses]

theorem nodup_productionsOf (hG : G.Compiled solver) (x : Category) :
    ((G.productionsOf x).map (·.rule)).Nodup := by
  unfold productionsOf
  cases hget : Table.get? G.productions x with
  | none => exact List.nodup_nil
  | some qs =>
    obtain ⟨y, hmem, _⟩ := Table.mem_of_get? hget
    have hcompiled := hG.nodup_compiledRules
    unfold compiledRules at hcompiled
    exact (List.nodup_flatMap.mp hcompiled).1 _ hmem

/-- A sum over the productions of a category, over the rules that the parser uses. -/
theorem sum_productionsOf {M : Type} [AddCommMonoid M] (hG : G.Compiled solver) (x : Category)
    (f : Rule K W → M) : ((G.productionsOf x).map fun q => f q.rule).sum
      = ∑ r ∈ G.usedRules, if r.lhs = x then f r else 0 := by
  have hmap : ((G.productionsOf x).map fun q => f q.rule)
      = ((G.productionsOf x).map (·.rule)).map f := by
    rw [List.map_map]
    rfl
  rw [hmap, ← List.sum_toFinset _ (hG.nodup_productionsOf x), ← Finset.sum_filter]
  refine Finset.sum_congr ?_ fun _ _ => rfl
  ext r
  rw [List.mem_toFinset, List.mem_map, Finset.mem_filter, hG.mem_usedRules]
  constructor
  · rintro ⟨q, hq, rfl⟩
    exact ⟨⟨x, q, hq, rfl⟩, (hG.isSound hq).lhs⟩
  · rintro ⟨⟨y, q, hq, rfl⟩, hlhs⟩
    rw [← hlhs, (hG.isSound hq).lhs]
    exact ⟨q, hq, rfl⟩

end Compiled
end Grammar

namespace Parser

/-! ## Prediction -/

/-- Whether a state is predicted from: it has found something, or it is one of the start symbol. -/
def IsKernel (s : State K W) : Prop :=
  ¬ (s.dot = 0 ∧ s.rule.lhs ≠ .start)

/-- What one call for the rules at the left corners of a category adds to a state. -/
noncomputable def reach (G : Grammar K W) (value : W → K) (k : Nat) (z : Category)
    (t : State K W) : K :=
  ((G.leftCornersOf z).map fun corner => value corner.2
    * ((G.productionsOf corner.1).map fun q =>
        if State.predicted q.rule k = t then value q.rule.weight else 0).sum).sum

/-- What a state adds to another one by prediction, for each unit of its own forward score. -/
noncomputable def call (G : Grammar K W) (value : W → K) (k : Nat) (s t : State K W) : K :=
  if IsKernel s then
    match s.next? with
    | none => 0
    | some z => if G.isNonterminal z then reach G value k z t else 0
  else 0

theorem forward_predictProduction (hG : G.Compiled solver) (hvalue : G.algebra.IsAdditive value)
    {k : Nat} (forward chain : W) (col : Column K W) {x : Category} {q : Production K W}
    (hq : q ∈ G.productionsOf x) {t : State K W} (ht : ChartRule G goal t.rule) :
    amount G.algebra value Cell.forward (predictProduction G.algebra k forward chain col q) t
      = amount G.algebra value Cell.forward col t + value forward * value chain
          * if State.predicted q.rule k = t then value q.rule.weight else 0 := by
  unfold predictProduction amount
  rw [Column.cell_alter G.algebra (discrete_chartRule hG) _ col (s := State.predicted q.rule k)
    (.used hq) ht]
  · split
    · have hforward : ∀ (b : Bool) (c : Cell K W) (w w' : W) (d : Backpointer K W),
          (if b = true then ((c.addForward G.algebra w).addInner G.algebra w').offer G.algebra d
            else c.addForward G.algebra w).forward = G.algebra.add c.forward w := by
        intro b c w w' d
        cases b
        · rfl
        · simp [Cell.addForward, Cell.addInner]
      rw [hforward, hvalue.add, hvalue.value_times]
    · rw [mul_zero, add_zero]
  · intro c
    split <;> simp [Cell.addForward, Cell.addInner]

theorem forward_foldl_productions (hG : G.Compiled solver) (hvalue : G.algebra.IsAdditive value)
    {k : Nat} (forward chain : W) (col : Column K W) {x : Category} {qs : List (Production K W)}
    (hqs : ∀ q ∈ qs, q ∈ G.productionsOf x) {t : State K W} (ht : ChartRule G goal t.rule) :
    amount G.algebra value Cell.forward
        (qs.foldl (predictProduction G.algebra k forward chain) col) t
      = amount G.algebra value Cell.forward col t + value forward * (value chain
          * (qs.map fun q =>
              if State.predicted q.rule k = t then value q.rule.weight else 0).sum) := by
  induction qs generalizing col with
  | nil => simp
  | cons q qs ih =>
    rw [List.foldl_cons, ih _ fun q' hq' => hqs q' (List.mem_cons_of_mem _ hq'),
      forward_predictProduction hG hvalue forward chain col (hqs q List.mem_cons_self) ht,
      List.map_cons, List.sum_cons]
    ring

theorem forward_foldl_corners (hG : G.Compiled solver) (hvalue : G.algebra.IsAdditive value)
    {k : Nat} (forward : W) (col : Column K W) (corners : Table Category W) {t : State K W}
    (ht : ChartRule G goal t.rule) :
    amount G.algebra value Cell.forward
        (corners.foldl (fun col corner => (G.productionsOf corner.1).foldl
          (predictProduction G.algebra k forward corner.2) col) col) t
      = amount G.algebra value Cell.forward col t + value forward
          * (corners.map fun corner => value corner.2
            * ((G.productionsOf corner.1).map fun q =>
              if State.predicted q.rule k = t then value q.rule.weight else 0).sum).sum := by
  induction corners generalizing col with
  | nil => simp
  | cons corner corners ih =>
    rw [List.foldl_cons, ih, forward_foldl_productions hG hvalue forward corner.2 col
      (fun q hq => hq) ht, List.map_cons, List.sum_cons]
    ring

/-- What predicting from one state adds. -/
theorem forward_predictFrom (hG : G.Compiled solver) (hvalue : G.algebra.IsAdditive value)
    {k : Nat} (col : Column K W) (s : State K W) {t : State K W} (ht : ChartRule G goal t.rule) :
    amount G.algebra value Cell.forward (predictFrom G k col s) t
      = amount G.algebra value Cell.forward col t
        + amount G.algebra value Cell.forward col s * call G value k s t := by
  unfold predictFrom call IsKernel
  by_cases hkernel : s.dot = 0 ∧ s.rule.lhs ≠ .start
  · rw [if_pos hkernel, if_neg (not_not.mpr hkernel), mul_zero, add_zero]
  · rw [if_neg hkernel, if_pos hkernel]
    cases hnext : s.next? with
    | none => rw [mul_zero, add_zero]
    | some z =>
      by_cases hz : G.isNonterminal z = true
      · simp only [if_pos hz]
        rw [forward_foldl_corners hG hvalue _ col _ ht, Column.forward_eq_cell]
        rfl
      · simp only [if_neg hz]
        rw [mul_zero, add_zero]

/-- Nothing is added to a kernel state. -/
theorem call_of_isKernel (hG : G.Compiled solver) {k : Nat} (s : State K W) {t : State K W}
    (ht : IsKernel t) : call G value k s t = 0 := by
  have hreach : ∀ z, reach G value k z t = 0 := by
    intro z
    refine List.sum_eq_zero fun w hw => ?_
    obtain ⟨corner, _, rfl⟩ := List.mem_map.mp hw
    rw [List.sum_eq_zero, mul_zero]
    intro w hw
    obtain ⟨q, hq, rfl⟩ := List.mem_map.mp hw
    refine if_neg fun heq => ht ?_
    rw [← heq]
    exact ⟨rfl, lhs_ne_start_of_used hG hq⟩
  unfold call
  split
  · split
    · rfl
    · rw [hreach, ite_self]
  · rfl

theorem call_of_not_isKernel {k : Nat} {s : State K W} (hs : ¬ IsKernel s) (t : State K W) :
    call G value k s t = 0 :=
  if_neg hs

/-- **What prediction adds to a state.** -/
theorem forward_predict (hG : G.Compiled solver) (hvalue : G.algebra.IsAdditive value) {k : Nat}
    (states : List (State K W)) (hstates : ∀ s ∈ states, ChartRule G goal s.rule)
    (col : Column K W) {t : State K W} (ht : ChartRule G goal t.rule) :
    amount G.algebra value Cell.forward (states.foldl (predictFrom G k) col) t
      = amount G.algebra value Cell.forward col t
        + (states.map fun s =>
            amount G.algebra value Cell.forward col s * call G value k s t).sum := by
  induction states generalizing col with
  | nil => simp
  | cons s states ih =>
    have hrest : ∀ s' ∈ states, ChartRule G goal s'.rule :=
      fun s' hs' => hstates s' (List.mem_cons_of_mem _ hs')
    -- a state that calls for something is a kernel state, and nothing has been added to it
    have hkeep : ∀ s' ∈ states,
        amount G.algebra value Cell.forward (predictFrom G k col s) s' * call G value k s' t
          = amount G.algebra value Cell.forward col s' * call G value k s' t := by
      intro s' hs'
      by_cases hkernel : IsKernel s'
      · rw [forward_predictFrom hG hvalue col s (hrest s' hs'), call_of_isKernel hG s hkernel,
          mul_zero, add_zero]
      · rw [call_of_not_isKernel hkernel, mul_zero, mul_zero]
    rw [List.foldl_cons, ih hrest, forward_predictFrom hG hvalue col s ht,
      List.map_congr_left hkeep, List.map_cons, List.sum_cons, add_assoc]

/-- The summed left-corner chains from what a state waits for, as the grammar has them. -/
def cornerOf (G : Grammar K W) (value : W → K) (s : State K W) (x : Category) : K :=
  match s.next? with
  | none => 0
  | some z => value (G.leftCornerScore z x)

omit [DecidableEq W] in
theorem cornerOf_of_next {s : State K W} {z : Category} (h : s.next? = some z) (x : Category) :
    cornerOf G value s x = value (G.leftCornerScore z x) := by
  unfold cornerOf
  rw [h]

variable [IsStrictOrderedRing K]

/-- What a kernel state adds to a predicted one. -/
theorem call_predicted (hG : G.Compiled solver) (hvalue : G.algebra.IsAdditive value) {k : Nat}
    {s : State K W} (hs : IsKernel s) {r : Rule K W} (hr : G.Uses r) :
    call G value k s (.predicted r k) = cornerOf G value s r.lhs * value r.weight := by
  -- among the productions of a name, only the rule itself is predicted as this state
  have hproductions : ∀ x, ((G.productionsOf x).map fun q =>
      if State.predicted q.rule k = State.predicted r k then value q.rule.weight else 0).sum
        = if r.lhs = x then value r.weight else 0 := by
    intro x
    have hrule : ∀ r' : Rule K W, State.predicted r' k = State.predicted r k ↔ r' = r :=
      fun r' => ⟨congrArg State.rule, fun heq => by rw [heq]⟩
    rw [hG.sum_productionsOf x fun r' =>
      if State.predicted r' k = State.predicted r k then value r'.weight else 0]
    simp only [hrule]
    rw [Finset.sum_eq_single r]
    · rw [if_pos rfl]
    · intro r' _ hne
      rw [if_neg hne, ite_self]
    · intro hout
      exact absurd (hG.mem_usedRules.mpr hr) hout
  unfold call
  rw [if_pos hs]
  cases hnext : s.next? with
  | none => rw [cornerOf, hnext, zero_mul]
  | some z =>
    rw [cornerOf_of_next hnext]
    by_cases hz : z ∈ G.names
    · simp only [if_pos (hG.isNonterminal_iff.mpr hz)]
      unfold reach
      rw [hG.sum_leftCornersOf hvalue hz fun x => ((G.productionsOf x).map fun q =>
        if State.predicted q.rule k = State.predicted r k then value q.rule.weight else 0).sum]
      simp only [hproductions, mul_ite, mul_zero]
      rw [Finset.sum_ite_eq, if_pos]
      exact List.mem_toFinset.mpr (hG.mem_names_of_uses hr)
    · simp only [if_neg fun hnt => hz (hG.isNonterminal_iff.mp hnt)]
      rw [hG.leftCornerScore_of_not_mem (Or.inl hz), hvalue.zero, zero_mul]

/-! ## Columns -/

section Run

variable {tokens : List Payload} {columns : List (Column K W)}

/-- The kernel states of a column. -/
noncomputable def kernel (columns : List (Column K W)) (k : Nat) : Finset (State K W) :=
  (statesAt columns k).toFinset.filter IsKernel

/-- Every column is predicted from its kernel. -/
theorem Run.exists_kernel (hG : G.Compiled solver) (h : Run G goal tokens columns) {k : Nat}
    (hk : k ≤ tokens.length) :
    ∃ base, Shaped G goal k base ∧ (∀ c ∈ base, IsKernel c.state) ∧
      Predicted G goal k base (pastColumn columns k) := by
  cases k with
  | zero =>
    obtain ⟨base, hseeded, hpredicted⟩ := h.seeded hG
    exact ⟨base, hseeded.shaped, fun c hc hno => hno.2 (hseeded.lhs_eq hc), hpredicted⟩
  | succ k =>
    obtain ⟨base, mid, order, hgrown⟩ := h.grown hG (List.getElem?_eq_getElem hk)
    refine ⟨_, shaped_of_core_eq hgrown.core.symm hgrown.completed.filled.shaped, ?_,
      hgrown.predicted⟩
    intro c hc hno
    refine hgrown.kernel c.state ?_ hno.1
    rw [← states_eq_of_core_eq hgrown.core]
    exact List.mem_map_of_mem hc

/-- What the kernel of a column holds was there before prediction, with the same scores. -/
theorem Predicted.kernel_eq {k : Nat} {base : Column K W}
    (h : Predicted G goal k base (pastColumn columns k)) (hG : G.Compiled solver)
    (hkernel : ∀ c ∈ base, IsKernel c.state) : kernel columns k = base.states.toFinset := by
  ext s
  unfold kernel
  rw [Finset.mem_filter, List.mem_toFinset, List.mem_toFinset]
  constructor
  · rintro ⟨hmem, hs⟩
    obtain ⟨c, hc, rfl⟩ := mem_states.mp hmem
    rcases h.cases c hc with hbase | ⟨d, _, q, hq, hqc⟩
    · exact mem_states.mpr ⟨c, hbase, rfl⟩
    · obtain ⟨_, _, _, _, x, _, hqx⟩ := (mem_calls hG).mp hq
      rw [hqc.state] at hs
      exact absurd ⟨rfl, lhs_ne_start_of_used hG hqx⟩ hs
  · intro hmem
    obtain ⟨c, hc, rfl⟩ := mem_states.mp hmem
    exact ⟨mem_states.mpr ⟨c, h.keeps c hc, rfl⟩, hkernel c hc⟩

/-- **The forward score of a predicted state** comes from the kernel states of its column. -/
theorem Run.forward_predicted (hG : G.Compiled solver) (hvalue : G.algebra.IsAdditive value)
    (h : Run G goal tokens columns) (k : Nat) {r : Rule K W} (hr : G.Uses r) :
    amount G.algebra value Cell.forward (pastColumn columns k) (.predicted r k)
      = (∑ s ∈ kernel columns k, amount G.algebra value Cell.forward (pastColumn columns k) s
          * cornerOf G value s r.lhs) * value r.weight := by
  obtain ⟨x, q, hq, rfl⟩ := hr
  have hshaped := h.pastShaped hG k
  by_cases hk : k ≤ tokens.length
  · obtain ⟨base, hbase, hkernel, hpredicted⟩ := h.exists_kernel hG hk
    -- the state is not in the kernel, so that prediction begins from nothing
    have hnot : State.predicted q.rule k ∉ base.states := by
      intro hmem
      obtain ⟨c, hc, hstate⟩ := mem_states.mp hmem
      have hc' := hkernel c hc
      rw [hstate] at hc'
      exact hc' ⟨rfl, lhs_ne_start_of_used hG hq⟩
    have hforward := forward_predict hG hvalue (k := k) base.states
      (fun s hs => by obtain ⟨c, hc, rfl⟩ := mem_states.mp hs; exact (hbase.fits c hc).rule) base
      (t := .predicted q.rule k) (.used hq)
    rw [amount_of_not_mem hG hvalue (isScore_forward _) hbase (s := .predicted q.rule k) (.used hq)
      hnot, zero_add, ← List.sum_toFinset _ hbase.nodup_states] at hforward
    rw [hpredicted.kernel_eq hG hkernel, Finset.sum_mul, ← hpredicted.predict_eq]
    refine hforward.trans (Finset.sum_congr rfl fun s hs => ?_)
    obtain ⟨c, hc, rfl⟩ := mem_states.mp (List.mem_toFinset.mp hs)
    have hmem : c ∈ predict G k base := hpredicted.predict_eq ▸ hpredicted.keeps c hc
    rw [call_predicted hG hvalue (hkernel c hc) ⟨x, q, hq, rfl⟩, ← mul_assoc,
      amount_of_mem hbase hc, amount_of_mem (hpredicted.predict_eq ▸ hshaped) hmem]
  · have hnil : statesAt columns k = [] := h.statesAt_of_ge (by omega)
    rw [amount_of_not_mem hG hvalue (isScore_forward _) hshaped
      (s := .predicted q.rule k) (.used hq)]
    · rw [kernel, hnil, List.toFinset_nil, Finset.filter_empty, Finset.sum_empty, zero_mul]
    · intro hmem
      have hmem : State.predicted q.rule k ∈ statesAt columns k := hmem
      rw [hnil] at hmem
      cases hmem

/-! ## Lockstep -/

/-- **Forward and inner scores grow in lockstep**: a state's forward score is to its inner score as
the forward score it was predicted with is to the weight of its rule. -/
theorem Run.lockstep (hG : G.Compiled solver) (hvalue : G.algebra.IsAdditive value)
    (h : Run G goal tokens columns) (i n k : Nat) {r : Rule K W} (hr : ChartRule G goal r) :
    amount G.algebra value Cell.forward (pastColumn columns k) ⟨i, n, k, r⟩ * value r.weight
      = amount G.algebra value Cell.forward (pastColumn columns i) (.predicted r i)
        * amount G.algebra value Cell.inner (pastColumn columns k) ⟨i, n, k, r⟩ := by
  induction k using Nat.strong_induction_on generalizing n with
  | _ k earlier =>
    have hshaped := h.pastShaped hG k
    by_cases hmem : (⟨i, n, k, r⟩ : State K W) ∈ statesAt columns k
    · have hfits : Fits G goal k ⟨i, n, k, r⟩ := by
        obtain ⟨c, hc, hstate⟩ := mem_states.mp hmem
        exact hstate ▸ hshaped.fits c hc
      cases n with
      | zero =>
        obtain rfl : i = k := hfits.origin_eq rfl
        have hinner : amount G.algebra value Cell.inner (pastColumn columns i) ⟨i, 0, i, r⟩
            = value r.weight := h.inner_predicted hG hvalue hmem
        rw [hinner]
        rfl
      | succ n =>
        have hlt : i < k := hfits.origin_lt (Nat.succ_pos n)
        have hn : n < r.rhs.length := hfits.dot_le
        have hk := h.le_length_of_mem hmem
        obtain ⟨k, rfl⟩ : ∃ k', k = k' + 1 := ⟨k - 1, by omega⟩
        have htoken : tokens[k]? = some (tokens.get ⟨k, hk⟩) := List.getElem?_eq_getElem hk
        have hx : r.rhs[n]? = some (r.rhs.get ⟨n, hn⟩) := List.getElem?_eq_getElem hn
        -- both flow by the same equation, whose terms are in lockstep already
        rw [h.amount_succ hG hvalue (isScore_forward _) htoken hr hx,
          h.amount_succ hG hvalue (isScore_inner _) htoken hr hx, add_mul, mul_add]
        congr 1
        · split
          · exact earlier k (by omega) n
          · rw [zero_mul, mul_zero]
        · rw [Finset.sum_mul, Finset.mul_sum]
          refine Finset.sum_congr rfl fun l hl => ?_
          have hterm := earlier l (Finset.mem_range.mp hl) n
          rw [mul_right_comm, hterm, mul_assoc]
    · rw [amount_of_not_mem hG hvalue (isScore_forward _) hshaped (s := ⟨i, n, k, r⟩) hr hmem,
        amount_of_not_mem hG hvalue (isScore_inner _) hshaped (s := ⟨i, n, k, r⟩) hr hmem,
        zero_mul, mul_zero]

end Run

end Parser
end StochasticGrammar
