import StochasticGrammar.Proofs.Stages

/-!
# Charts are saturated

The states of a chart, without their scores: which steps the chart is closed under, and by which
step each state came in. Prediction and completion jump over chains, but the closure properties are
those of the single steps, so what follows from here on need not know about the jumps.

> `Charted.saturated`: the chart of any token list is saturated.
-/

namespace StochasticGrammar.Parser

open Relation (ReflTransGen)

variable {P W : Type} [DecidableEq P] [DecidableEq W] [Probability P] {solver : Solver P}
  {G : Grammar P W} {goal : Category}

/-- The states at a position. -/
def statesAt (columns : List (Column P W)) (k : Nat) : List (State P W) :=
  (pastColumn columns k).states

/-- By which step a state came into a chart. -/
inductive Justified (G : Grammar P W) (goal : Category) (tokens : List Payload)
    (columns : List (Column P W)) : Nat → State P W → Prop
  | seed : Justified G goal tokens columns 0 (.predicted (startRule G.algebra goal) 0)
  | empty {q : Production P W} (hnull : G.isNullable goal = true) (hq : emptyStart G goal = .ok q) :
      Justified G goal tokens columns 0 (.predicted q.rule 0)
  | predicted {k : Nat} {d : State P W} {z x : Category} {q : Production P W}
      (hd : d ∈ statesAt columns k) (hkernel : ¬ (d.dot = 0 ∧ d.rule.lhs ≠ .start))
      (hz : d.next? = some z) (hchain : ReflTransGen G.LeftStep z x)
      (hq : q ∈ G.productionsOf x) : Justified G goal tokens columns k (.predicted q.rule k)
  | scanned {k : Nat} {p : State P W} {token : Payload} (hp : p ∈ statesAt columns k)
      (htoken : tokens[k]? = some token) (htakes : Takes G token p) :
      Justified G goal tokens columns (k + 1) (p.advance (k + 1))
  | completed {k : Nat} {d p : State P W} {x : Category} (hd : d ∈ statesAt columns k)
      (hpending : isPending G k d = true) (hp : p ∈ statesAt columns d.origin)
      (hx : p.next? = some x) (hlhs : d.rule.lhs ∈ G.names)
      (hchain : ReflTransGen G.UnitStep x d.rule.lhs) :
      Justified G goal tokens columns k (p.advance k)

/-- A chart that holds the start rule, whose states all came in by a step, and from which no step
leads out. -/
structure Saturated (G : Grammar P W) (goal : Category) (tokens : List Payload)
    (columns : List (Column P W)) : Prop where
  goal_ne : goal ≠ .start
  shaped : PastShaped G goal columns
  justified : ∀ {k s}, s ∈ statesAt columns k → Justified G goal tokens columns k s
  seed : .predicted (startRule G.algebra goal) 0 ∈ statesAt columns 0
  empty : G.isNullable goal = true →
    ∃ q, emptyStart G goal = .ok q ∧ .predicted q.rule 0 ∈ statesAt columns 0
  predict : ∀ {k s z q}, s ∈ statesAt columns k → s.next? = some z → q ∈ G.productionsOf z →
    .predicted q.rule k ∈ statesAt columns k
  scan : ∀ {k s token}, s ∈ statesAt columns k → tokens[k]? = some token → Takes G token s →
    s.advance (k + 1) ∈ statesAt columns (k + 1)
  complete : ∀ {k done s}, done ∈ statesAt columns k → done.isComplete = true → done.origin < k →
    s ∈ statesAt columns done.origin → s.next? = some done.rule.lhs →
    s.advance k ∈ statesAt columns k

omit [DecidableEq P] [DecidableEq W] [Probability P] in
theorem mem_states {col : Column P W} {s : State P W} : s ∈ col.states ↔ ∃ c ∈ col, c.state = s :=
  List.mem_map

/-- A state of a saturated chart fits its position. -/
theorem Saturated.fits {tokens : List Payload} {columns : List (Column P W)}
    (h : Saturated G goal tokens columns) {k : Nat} {s : State P W} (hs : s ∈ statesAt columns k) :
    Fits G goal k s := by
  obtain ⟨c, hc, rfl⟩ := mem_states.mp hs
  exact (h.shaped k).fits c hc

/-! ## Prediction -/

/-- After prediction, every state has all productions of what it waits for beside it. A predicted
state waits for something that is at the left corner of what the kernel state waited for. -/
theorem Predicted.predict_closed [PositiveSums P] (hG : G.Compiled solver) {k : Nat}
    {base col : Column P W} (h : Predicted G goal k base col)
    (hkernel : ∀ c ∈ base, ¬ (c.state.dot = 0 ∧ c.state.rule.lhs ≠ .start)) {s : State P W}
    (hs : s ∈ col.states) {z : Category} (hz : s.next? = some z) {q : Production P W}
    (hq : q ∈ G.productionsOf z) : .predicted q.rule k ∈ col.states := by
  have hnames := hG.isNonterminal_iff.mp (hG.isSound hq).nonterminal
  obtain ⟨c, hc, rfl⟩ := mem_states.mp hs
  rw [mem_states]
  rcases h.cases c hc with hbase | ⟨d, hd, p, hp, hpc⟩
  · exact h.covers c hbase q ((mem_calls hG).mpr ⟨hkernel c hbase, z, hz, hnames, z, .refl, hq⟩)
  · obtain ⟨hd', z', hz', hnames', x, hchain, hpx⟩ := (mem_calls hG).mp hp
    refine h.covers d hd q ((mem_calls hG).mpr ⟨hd', z', hz', hnames', z, hchain.tail ?_, hq⟩)
    rw [hpc.state] at hz
    exact ⟨p, hpx, _, (State.next?_eq_some hz).2, (hG.isSound hq).nonterminal⟩

/-- Prediction adds justified states to justified ones. -/
theorem Predicted.justified [PositiveSums P] (hG : G.Compiled solver) {tokens : List Payload}
    {columns : List (Column P W)} {k : Nat} {base : Column P W}
    (h : Predicted G goal k base (pastColumn columns k))
    (hbase : ∀ c ∈ base, Justified G goal tokens columns k c.state) {s : State P W}
    (hs : s ∈ statesAt columns k) : Justified G goal tokens columns k s := by
  obtain ⟨c, hc, rfl⟩ := mem_states.mp hs
  rcases h.cases c hc with hc | ⟨d, hd, q, hq, hqc⟩
  · exact hbase c hc
  · obtain ⟨hkernel, z, hz, _, x, hchain, hqx⟩ := (mem_calls hG).mp hq
    rw [hqc.state]
    exact .predicted (mem_states.mpr ⟨d, h.keeps d hd, rfl⟩) hkernel hz hchain hqx

/-! ## Single columns -/

section Grown

variable {tokens : List Payload} {columns : List (Column P W)} {k : Nat} {token : Payload}
  {base mid : Column P W} {order : List (State P W)}

theorem Grown.mem_of_mem_mid
    (h : Grown G goal (columns.take (k + 1)) k token base mid (pastColumn columns (k + 1)) order)
    {s : State P W} (hs : s ∈ mid.states) : s ∈ statesAt columns (k + 1) := by
  rw [← states_eq_of_core_eq h.core] at hs
  obtain ⟨c, hc, rfl⟩ := mem_states.mp hs
  exact mem_states.mpr ⟨c, h.predicted.keeps c hc, rfl⟩

/-- What is complete or under way was there before prediction. -/
theorem Grown.mem_mid_of_dot_ne
    (h : Grown G goal (columns.take (k + 1)) k token base mid (pastColumn columns (k + 1)) order)
    {s : State P W} (hs : s ∈ statesAt columns (k + 1)) (hdot : s.dot ≠ 0) : s ∈ mid.states := by
  obtain ⟨c, hc, rfl⟩ := mem_states.mp hs
  rcases h.predicted.cases c hc with hc | ⟨_, _, q, _, hqc⟩
  · rw [← states_eq_of_core_eq h.core]
    exact mem_states.mpr ⟨c, hc, rfl⟩
  · rw [hqc.state] at hdot
    exact absurd rfl hdot

/-- **A column that grew from a token holds justified states only.** -/
theorem Grown.justified [PositiveSums P] (hG : G.Compiled solver)
    (h : Grown G goal (columns.take (k + 1)) k token base mid (pastColumn columns (k + 1)) order)
    (htoken : tokens[k]? = some token) {s : State P W} (hs : s ∈ statesAt columns (k + 1)) :
    Justified G goal tokens columns (k + 1) s := by
  refine h.predicted.justified hG (fun c hc => ?_) hs
  have hmid : c.state ∈ mid.states := by
    rw [← states_eq_of_core_eq h.core]
    exact mem_states.mpr ⟨c, hc, rfl⟩
  rcases (h.completed.filled.mem_states _).mp hmid with hscan | ⟨m, hm, htarget⟩
  · obtain ⟨d, hd, hdc⟩ := mem_states.mp hscan
    obtain ⟨cell, hcell, htakes, rfl⟩ := (h.scanned.mem d).mp hd
    rw [← hdc]
    rw [pastColumn_take (Nat.lt_succ_self k)] at hcell
    exact .scanned (mem_states.mpr ⟨cell, hcell, rfl⟩) htoken htakes
  · obtain ⟨d, hd, hm⟩ := List.mem_flatMap.mp hm
    obtain ⟨hcell, x, _, hnext, hlhs, hchain⟩ := mem_moves hG hm
    obtain ⟨hdmid, hpending⟩ := (h.completed.mem_order d).mp hd
    have hlt : d.origin < k + 1 := by
      unfold isPending at hpending
      rw [Bool.and_eq_true, Bool.and_eq_true, decide_eq_true_eq] at hpending
      exact hpending.1.2
    rw [pastColumn_take hlt] at hcell
    rw [← htarget]
    exact .completed (h.mem_of_mem_mid hdmid) hpending (mem_states.mpr ⟨m.cell, hcell, rfl⟩) hnext
      hlhs hchain

/-- What a complete state may move has been moved. -/
theorem Grown.complete_closed
    (h : Grown G goal (columns.take (k + 1)) k token base mid (pastColumn columns (k + 1)) order)
    (hpast : PastShaped G goal columns) {done s : State P W}
    (hdone : done ∈ statesAt columns (k + 1)) (hcomplete : done.isComplete = true)
    (horigin : done.origin < k + 1) (hs : s ∈ statesAt columns done.origin)
    (hnext : s.next? = some done.rule.lhs) :
    s.advance (k + 1) ∈ statesAt columns (k + 1) := by
  obtain ⟨c, hc, hcd⟩ := mem_states.mp hdone
  have hfits : Fits G goal (k + 1) done := hcd ▸ (hpast (k + 1)).fits c hc
  have hmid := h.mem_mid_of_dot_ne hdone (Nat.ne_of_gt (hfits.dot_pos_iff.mpr horigin))
  obtain ⟨cell, hcell, rfl⟩ := mem_states.mp hs
  refine h.mem_of_mem_mid (h.closed done ⟨hmid, hcomplete, horigin⟩ cell ?_)
  rw [pastColumn_take horigin]
  refine List.mem_filter.mpr ⟨hcell, ?_⟩
  rw [hnext]
  exact BEq.rfl

/-- What takes the token has been moved over it. -/
theorem Grown.scan_closed
    (h : Grown G goal (columns.take (k + 1)) k token base mid (pastColumn columns (k + 1)) order)
    {s : State P W} (hs : s ∈ statesAt columns k) (htakes : Takes G token s) :
    s.advance (k + 1) ∈ statesAt columns (k + 1) := by
  obtain ⟨cell, hcell, rfl⟩ := mem_states.mp hs
  refine h.mem_of_mem_mid ((h.completed.filled.mem_states _).mpr (Or.inl (mem_states.mpr
    ⟨shifted G.algebra (k + 1) token cell, (h.scanned.mem _).mpr ⟨cell, ?_, htakes, rfl⟩, rfl⟩)))
  rw [pastColumn_take (Nat.lt_succ_self k)]
  exact hcell

end Grown

/-! ## Whole charts -/

theorem Run.statesAt_of_ge {tokens : List Payload} {columns : List (Column P W)}
    (h : Run G goal tokens columns) {k : Nat} (hk : tokens.length < k) :
    statesAt columns k = [] := by
  unfold statesAt
  rw [pastColumn_of_ge (by rw [h.length]; omega)]
  rfl

/-- The states that the chart begins with are justified. -/
theorem Seeded.justified {tokens : List Payload} {columns : List (Column P W)} {base : Column P W}
    (h : Seeded G goal base) {c : Cell P W} (hc : c ∈ base) :
    Justified G goal tokens columns 0 c.state := by
  rcases (h.mem c).mp hc with rfl | ⟨hnull, q, hq, rfl⟩
  · exact .seed
  · exact .empty hnull hq

/-- The chart of a run is saturated. -/
theorem Run.saturated [PositiveSums P] (hG : G.Compiled solver) {tokens : List Payload}
    {columns : List (Column P W)} (h : Run G goal tokens columns) :
    Saturated G goal tokens columns := by
  obtain ⟨seeds, hseeds, hfirst⟩ := h.seeded hG
  have hpast := h.pastShaped hG
  have htoken : ∀ {k : Nat}, k + 1 ≤ tokens.length → ∃ token, tokens[k]? = some token :=
    fun hk => ⟨_, List.getElem?_eq_getElem hk⟩
  -- a column beyond the tokens is empty, so a state at a position comes with its column's stages
  have hbound : ∀ {k : Nat} {s : State P W}, s ∈ statesAt columns k → k ≤ tokens.length := by
    intro k s hs
    by_contra hgt
    rw [h.statesAt_of_ge (by omega)] at hs
    cases hs
  refine ⟨h.goal_ne, hpast, ?_, ?_, ?_, ?_, ?_, ?_⟩
  · intro k s hs
    cases k with
    | zero => exact hfirst.justified hG (fun c hc => hseeds.justified hc) hs
    | succ k =>
      obtain ⟨token, hk⟩ := htoken (hbound hs)
      obtain ⟨base, mid, order, hgrown⟩ := h.grown hG hk
      exact hgrown.justified hG hk hs
  · exact mem_states.mpr ⟨_, hfirst.keeps _ ((hseeds.mem _).mpr (Or.inl rfl)), rfl⟩
  · intro hnull
    obtain ⟨q, hq⟩ := hseeds.empty hnull
    exact ⟨q, hq, mem_states.mpr
      ⟨_, hfirst.keeps _ ((hseeds.mem _).mpr (Or.inr ⟨hnull, q, hq, rfl⟩)), rfl⟩⟩
  · intro k s z q hs hz hq
    cases k with
    | zero =>
      refine hfirst.predict_closed hG (fun c hc hkernel => ?_) hs hz hq
      exact hkernel.2 (hseeds.lhs_eq hc)
    | succ k =>
      obtain ⟨token, hk⟩ := htoken (hbound hs)
      obtain ⟨base, mid, order, hgrown⟩ := h.grown hG hk
      refine hgrown.predicted.predict_closed hG (fun c hc hkernel => ?_) hs hz hq
      refine hgrown.kernel c.state ?_ hkernel.1
      rw [← states_eq_of_core_eq hgrown.core]
      exact mem_states.mpr ⟨c, hc, rfl⟩
  · intro k s token hs hk htakes
    obtain ⟨base, mid, order, hgrown⟩ := h.grown hG hk
    exact hgrown.scan_closed hs htakes
  · intro k done s hdone hcomplete horigin hs hnext
    cases k with
    | zero => exact absurd horigin (Nat.not_lt_zero _)
    | succ k =>
      obtain ⟨token, hk⟩ := htoken (hbound hdone)
      obtain ⟨base, mid, order, hgrown⟩ := h.grown hG hk
      exact hgrown.complete_closed hpast hdone hcomplete horigin hs hnext

/-- No state of a run takes a token at which the scan came out empty. -/
theorem Run.not_takes_of_scan [PositiveSums P] (hG : G.Compiled solver) {tokens : List Payload}
    {columns : List (Column P W)} (h : Run G goal tokens columns) {token : Payload}
    {column : Column P W}
    (hscan : scan G columns.length token (pastColumn columns tokens.length) [] = (column, .ok []))
    {s : State P W} (hs : s ∈ statesAt columns tokens.length) : ¬ Takes G token s := by
  intro htakes
  rw [h.length] at hscan
  obtain ⟨hscanned, hfound⟩ := scanned_of_scan (h.pastShaped hG tokens.length) hscan
  obtain ⟨cell, hcell, rfl⟩ := mem_states.mp hs
  have hmem := (hscanned.mem _).mpr ⟨cell, hcell, htakes, rfl⟩
  rw [List.map_eq_nil_iff.mp hfound.symm] at hmem
  cases hmem

/-- Where the tokens go on behind a run that is stuck, its states take only tokens of the run. -/
theorem Run.token_of_takes [PositiveSums P] (hG : G.Compiled solver) {taken rest : List Payload}
    {columns : List (Column P W)} (h : Run G goal taken columns)
    (hstuck : ∀ token more, rest = token :: more →
      ∃ column, scan G columns.length token (pastColumn columns taken.length) [] = (column, .ok []))
    {k : Nat} {s : State P W} {token : Payload} (hs : s ∈ statesAt columns k)
    (htoken : (taken ++ rest)[k]? = some token) (htakes : Takes G token s) :
    taken[k]? = some token := by
  rcases Nat.lt_trichotomy k taken.length with hlt | rfl | hgt
  · rwa [List.getElem?_append_left hlt] at htoken
  · rw [List.getElem?_append_right (Nat.le_refl _), Nat.sub_self] at htoken
    obtain ⟨more, hrest⟩ : ∃ more, rest = token :: more := by
      cases rest with
      | nil => cases htoken
      | cons t more =>
        cases htoken
        exact ⟨more, rfl⟩
    obtain ⟨column, hscan⟩ := hstuck token more hrest
    exact absurd htakes (h.not_takes_of_scan hG hscan hs)
  · rw [h.statesAt_of_ge hgt] at hs
    cases hs

/-- **The chart of any token list is saturated.** At the first token that cannot be scanned no state
takes it, and the columns behind it are empty. -/
theorem Charted.saturated [PositiveSums P] (hG : G.Compiled solver) {tokens : List Payload}
    {columns : List (Column P W)} (h : Charted G goal tokens columns) :
    Saturated G goal tokens columns := by
  obtain ⟨taken, rest, past, rfl, hrun, rfl, hstuck⟩ := h
  have hsat := hrun.saturated hG
  have hcol : ∀ k, pastColumn (past ++ List.replicate rest.length []) k = pastColumn past k :=
    fun k => pastColumn_append_replicate past _ k
  have hstates : ∀ k, statesAt (past ++ List.replicate rest.length []) k = statesAt past k :=
    fun k => congrArg Column.states (hcol k)
  refine ⟨hsat.goal_ne, fun k => ?_, ?_, ?_, ?_, ?_, ?_, ?_⟩
  · rw [hcol]
    exact hsat.shaped k
  · intro k s hs
    rw [hstates] at hs
    cases hsat.justified hs with
    | seed => exact .seed
    | empty hnull hq => exact .empty hnull hq
    | predicted hd hkernel hz hchain hq =>
      exact .predicted (by rw [hstates]; exact hd) hkernel hz hchain hq
    | scanned hp htoken htakes =>
      refine .scanned (by rw [hstates]; exact hp) ?_ htakes
      rw [List.getElem?_append_left (List.getElem?_eq_some_iff.mp htoken).1]
      exact htoken
    | completed hd hpending hp hx hlhs hchain =>
      exact .completed (by rw [hstates]; exact hd) hpending
        (by rw [hstates]; exact hp) hx hlhs hchain
  · rw [hstates]
    exact hsat.seed
  · rw [hstates]
    exact hsat.empty
  · intro k s z q hs hz hq
    rw [hstates] at hs ⊢
    exact hsat.predict hs hz hq
  · -- no state takes the token at which the run stopped
    intro k s token hs htoken htakes
    rw [hstates] at hs ⊢
    exact hsat.scan hs (hrun.token_of_takes hG hstuck hs htoken htakes) htakes
  · intro k done s hdone hcomplete horigin hs hnext
    rw [hstates] at hdone hs ⊢
    exact hsat.complete hdone hcomplete horigin hs hnext

end StochasticGrammar.Parser
