import StochasticGrammar.Proofs.Completion
import StochasticGrammar.Proofs.Prediction
import StochasticGrammar.Proofs.Scanning

/-!
# The stages of a column

Every column but the first goes through three stages: a scan, a completion and a prediction. Best
derivations are completed after the scores, over a column that holds all its states already, so that
they add none.

> `Completed.closed`: every cell that waits for a complete state has moved over it, also where that
> state completes a unit rule, which was never taken itself.

> `map_completeBest`: completing best derivations changes nothing else.

> `Course.finished`: the stages of every column, also where a faulty pattern had cut a scan short.

> `Run.grown`: the stages of every column of a run.
-/

namespace StochasticGrammar.Parser

open Relation (ReflTransGen)

variable {P W : Type} [DecidableEq P] [DecidableEq W] [Probability P] {solver : Solver P}
  {G : Grammar P W} {goal : Category}

/-! ## Completed columns are closed -/

/-- The complete states of a column that span something. -/
def IsOpen (k : Nat) (col : Column P W) (done : State P W) : Prop :=
  done ∈ col.states ∧ done.isComplete = true ∧ done.origin < k

/-- Every cell that waits for a complete state has moved over it. -/
def Closed (past : List (Column P W)) (k : Nat) (col : Column P W) : Prop :=
  ∀ done, IsOpen k col done → ∀ cell ∈ (pastColumn past done.origin).waiting done.rule.lhs,
    cell.state.advance k ∈ col.states

/-- The categories that cells wait for and rules expand are names. -/
theorem mem_names_of_waiting (hG : G.Compiled solver) (hgoal : goal ≠ .start) {k j : Nat}
    {col : Column P W} (hcol : Shaped G goal k col) {cell : Cell P W} {done : State P W}
    (hdone : Fits G goal j done) (hcell : cell ∈ col.waiting done.rule.lhs) :
    done.rule.lhs ∈ G.names ∧ cell ∈ col ∧ cell.state.next? = some done.rule.lhs := by
  have hstart : done.rule.lhs ≠ .start := by
    intro hlhs
    rw [hlhs, mem_waiting rfl] at hcell
    exact (hcol.fits cell hcell.1).next_ne_start hG hgoal hcell.2 rfl
  obtain ⟨q, hq, hrule⟩ := hdone.rule.uses hG hstart
  have hnames := hG.isNonterminal_iff.mp (hG.isSound hq).nonterminal
  exact ⟨hnames, (mem_waiting (hG.names_plain hnames)).mp hcell⟩

/-- A unit rule that has been completed was completed over a phrase from which a chain of unit rules
leads down to a state that was taken. -/
theorem Completed.exists_taken_of_unit [PositiveSums P] (hG : G.Compiled solver)
    {past : List (Column P W)} (hpast : PastShaped G goal past) {j k : Nat} {read : Payload → Prop}
    {prev base col : Column P W} {order : List (State P W)}
    (hbase : Swept G goal j read prev base) (h : Completed G goal past k base col order)
    {done : State P W} (hopen : IsOpen k col done) (hnames : done.rule.lhs ∈ G.names)
    (hunit : G.isUnit done.rule = true) :
    ∃ d ∈ order, d.origin = done.origin ∧ d.rule.lhs ∈ G.names ∧
      ReflTransGen G.UnitStep done.rule.lhs d.rule.lhs := by
  obtain ⟨hmem, hcomplete, horigin⟩ := hopen
  obtain ⟨c, hc, rfl⟩ := List.mem_map.mp hmem
  have hfits := h.filled.shaped.fits c hc
  unfold Grammar.isUnit at hunit
  split at hunit
  · next y hrhs =>
    have hdot : c.state.dot = 1 := by
      rw [hfits.dot_eq_of_isComplete hcomplete, hrhs]
      rfl
    rcases (h.filled.mem_states c.state).mp hmem with hscan | ⟨m, hm, htarget⟩
    · -- what was scanned has found a terminal last
      obtain ⟨d, hd, hdc⟩ := List.mem_map.mp hscan
      obtain ⟨cell, hcell, _, _, ⟨t, ht, hterm, _⟩, hstate, _⟩ := hbase.moved d hd
      obtain ⟨_, hcdot, hcrule⟩ := State.of_advance_eq (hstate.symm.trans hdc)
      rw [hdot, Nat.add_eq_right] at hcdot
      rw [State.next?, hcdot, hcrule, hrhs] at ht
      cases ht
      exact absurd hterm (hG.not_isTerminal_of_mem (hG.isNonterminal_iff.mp hunit))
    · -- what was moved to has found the phrase that it was moved over
      obtain ⟨d, hd, hm⟩ := List.mem_flatMap.mp hm
      obtain ⟨hcell, x, hx, hnext, hlhs, hchain⟩ := mem_moves hG hm
      obtain ⟨hcorigin, hcdot, hcrule⟩ := State.of_advance_eq (s := m.cell.state) htarget
      rw [hdot, Nat.add_eq_right] at hcdot
      rw [State.next?, hcdot, hcrule, hrhs] at hnext
      cases hnext
      refine ⟨d, hd, ?_, hlhs, ?_⟩
      · rw [← hcorigin, ((hpast d.origin).fits m.cell hcell).origin_eq hcdot]
      · obtain ⟨q, hq, hqr⟩ := hfits.rule.uses hG (hG.ne_start_of_mem_names hnames)
        exact .head ⟨q, hq, by rw [hqr]; exact hrhs, hunit⟩ hchain
  · cases hunit

/-- **A completed column is closed.** -/
theorem Completed.closed [PositiveSums P] (hG : G.Compiled solver) (hgoal : goal ≠ .start)
    {past : List (Column P W)} (hpast : PastShaped G goal past) {j k : Nat} {read : Payload → Prop}
    {prev base col : Column P W} {order : List (State P W)}
    (hbase : Swept G goal j read prev base) (h : Completed G goal past k base col order) :
    Closed past k col := by
  intro done hopen cell hcell
  obtain ⟨c, hc, hcd⟩ := List.mem_map.mp hopen.1
  have hfits : Fits G goal k done := by
    rw [← hcd]
    exact h.filled.shaped.fits c hc
  obtain ⟨hnames, hmem, hnext⟩ := mem_names_of_waiting hG hgoal (hpast done.origin) hfits hcell
  have hmove : ∀ d ∈ order, d.origin = done.origin → d.rule.lhs ∈ G.names →
      ReflTransGen G.UnitStep done.rule.lhs d.rule.lhs → cell.state.advance k ∈ col.states := by
    intro d hd horigin hlhs hchain
    rw [← horigin] at hmem
    obtain ⟨m, hm, hmcell⟩ := exists_move hG (col.inner G.algebra d) hmem hnext hlhs hchain
    refine (h.filled.mem_states _).mpr (Or.inr ⟨m, List.mem_flatMap.mpr ⟨d, hd, hm⟩, ?_⟩)
    rw [Move.target, hmcell]
  by_cases hunit : G.isUnit done.rule = true
  · obtain ⟨d, hd, horigin, hlhs, hchain⟩ :=
      h.exists_taken_of_unit hG hpast hbase hopen hnames hunit
    exact hmove d hd horigin hlhs hchain
  · refine hmove done ((h.mem_order done).mpr ⟨hopen.1, ?_⟩) rfl hnames .refl
    simp [isPending, hopen.2.1, hopen.2.2, hunit]

/-! ## Best derivations add no state -/

/-- A cell without its best derivation. -/
def Cell.core (c : Cell P W) : State P W × W × W :=
  (c.state, c.forward, c.inner)

omit [DecidableEq P] [DecidableEq W] [Probability P] in
theorem states_eq_of_core_eq {col col' : Column P W} (h : col.map Cell.core = col'.map Cell.core) :
    col.states = col'.states := by
  have hfst := congrArg (List.map (·.1)) h
  simpa [Column.states, Function.comp_def, Cell.core] using hfst

/-- A column under improvement holds the states it held, and takes only complete ones. -/
structure Improving (k : Nat) (base : Column P W) (work : Improvement P W) : Prop where
  core : work.column.map Cell.core = base.map Cell.core
  queue : ∀ s ∈ work.improved, IsOpen k base s

theorem Improving.offerOver {k : Nat} {base : Column P W} {work : Improvement P W}
    (h : Improving k base work) {done : State P W} {score : W} {cell : Cell P W}
    (hfits : Fits G goal k (cell.state.advance k)) (hmem : cell.state.advance k ∈ base.states) :
    Improving k base (offerOver G.algebra k done score work cell) := by
  unfold Parser.offerOver
  cases cell.best with
  | none => exact h
  | some b =>
    have hcontains : work.column.contains (cell.state.advance k) = true := by
      rw [← states_eq_of_core_eq h.core] at hmem
      obtain ⟨c, hc, hcs⟩ := List.mem_map.mp hmem
      exact Column.contains_iff.mpr ⟨c, hc, by rw [hcs]; exact BEq.rfl⟩
    refine ⟨?_, fun s hs => ?_⟩
    · rw [← h.core]
      refine Column.map_alter G.algebra (fun c => ?_) hcontains
      simp [Cell.core]
    · dsimp only at hs
      split at hs
      · next himproves =>
        rw [Bool.and_eq_true] at himproves
        rcases List.mem_append.mp hs with hs | hs
        · exact h.queue s hs
        · rw [List.mem_singleton.mp hs]
          exact ⟨hmem, himproves.2, hfits.origin_lt (Nat.succ_pos _)⟩
      · exact h.queue s hs

theorem Improving.improveOver (hG : G.Compiled solver) (hgoal : goal ≠ .start)
    {past : List (Column P W)} (hpast : PastShaped G goal past) {k : Nat} {base : Column P W}
    (hbase : Shaped G goal k base) (hclosed : Closed past k base) {work : Improvement P W}
    (h : Improving k base work) {done : State P W} (hdone : IsOpen k base done) :
    Improving k base (improveOver G.algebra past k work done) := by
  unfold Parser.improveOver
  cases work.column.best? done with
  | none => exact h
  | some b =>
    obtain ⟨c, hc, hcd⟩ := List.mem_map.mp hdone.1
    have hfits : Fits G goal k done := by
      rw [← hcd]
      exact hbase.fits c hc
    refine List.foldlRecOn _ _ h fun work hwork cell hcell => ?_
    obtain ⟨_, hmem, hnext⟩ := mem_names_of_waiting hG hgoal (hpast done.origin) hfits hcell
    exact hwork.offerOver (((hpast done.origin).fits cell hmem).advance hnext hdone.2.2)
      (hclosed done hdone cell hcell)

theorem Improving.improve (hG : G.Compiled solver) (hgoal : goal ≠ .start)
    {past : List (Column P W)} (hpast : PastShaped G goal past) {k : Nat} {base : Column P W}
    (hbase : Shaped G goal k base) (hclosed : Closed past k base) (fuel : Nat)
    {work : Improvement P W} (h : Improving k base work) :
    (improve G.algebra past k fuel work).map Cell.core = base.map Cell.core := by
  induction fuel generalizing work with
  | zero => exact h.core
  | succ fuel ih =>
    unfold Parser.improve
    split
    · exact h.core
    · refine ih (List.foldlRecOn _ _ ⟨h.core, fun s hs => (by cases hs)⟩
        fun work' hwork' done hdone => ?_)
      exact hwork'.improveOver hG hgoal hpast hbase hclosed (h.queue done hdone)

/-- **Completing best derivations changes nothing else.** -/
theorem map_completeBest (hG : G.Compiled solver) (hgoal : goal ≠ .start)
    {past : List (Column P W)} (hpast : PastShaped G goal past) {k : Nat} {base : Column P W}
    (hbase : Shaped G goal k base) (hclosed : Closed past k base) :
    (completeBest G.algebra past k base).map Cell.core = base.map Cell.core := by
  refine Improving.improve hG hgoal hpast hbase hclosed _ ⟨rfl, fun s hs => ?_⟩
  obtain ⟨hmem, hs⟩ := List.mem_filter.mp hs
  rw [Bool.and_eq_true, decide_eq_true_eq] at hs
  exact ⟨hmem, hs⟩

/-! ## The first column -/

/-- The cell of a production in the first column. -/
def seedCell (A : ScoreAlgebra P W) (q : Production P W) : Cell P W :=
  ⟨.predicted q.rule 0, A.add A.zero q.rule.weight, A.add A.zero q.rule.weight,
    some ⟨.seed, q.best, none, none, none⟩⟩

/-- What the first column holds before prediction. -/
structure Seeded (G : Grammar P W) (goal : Category) (base : Column P W) : Prop where
  shaped : Shaped G goal 0 base
  empty : G.isNullable goal = true → ∃ q, emptyStart G goal = .ok q
  mem : ∀ c, c ∈ base ↔ c = seedCell G.algebra (.ofRule (startRule G.algebra goal)) ∨
    G.isNullable goal = true ∧ ∃ q, emptyStart G goal = .ok q ∧ c = seedCell G.algebra q

omit [Probability P] in
theorem seed_of_not_contains (A : ScoreAlgebra P W) {q : Production P W} {col : Column P W}
    (h : col.contains (.predicted q.rule 0) = false) : seed A q col = col ++ [seedCell A q] := by
  unfold seed
  rw [Column.alter_of_not_contains A h]
  rfl

omit [DecidableEq P] [DecidableEq W] in
theorem fits_start : Fits G goal 0 (.predicted (startRule G.algebra goal) 0) :=
  ⟨.start, rfl, Nat.zero_le _, fun _ => rfl, fun h => absurd h (Nat.lt_irrefl 0), fun _ => rfl⟩

omit [DecidableEq P] [DecidableEq W] in
theorem fits_empty {q : Production P W} (hnull : G.isNullable goal = true)
    (hq : emptyStart G goal = .ok q) : Fits G goal 0 (.predicted q.rule 0) :=
  ⟨.empty hnull hq, rfl, Nat.zero_le _, fun _ => rfl, fun h => absurd h (Nat.lt_irrefl 0),
    fun _ => rfl⟩

theorem seeded_of_seeds (hG : G.Compiled solver) {base : Column P W} (h : seeds G goal = .ok base) :
    Seeded G goal base := by
  have hstart : seed G.algebra (.ofRule (startRule G.algebra goal)) []
      = [seedCell G.algebra (.ofRule (startRule G.algebra goal))] :=
    seed_of_not_contains G.algebra rfl
  have hsingle : Shaped G goal 0 [seedCell G.algebra (.ofRule (startRule G.algebra goal))] := by
    refine ⟨List.pairwise_singleton _ _, fun c hc => ?_⟩
    rw [List.mem_singleton.mp hc]
    exact fits_start
  unfold seeds at h
  rw [hstart] at h
  dsimp only at h
  split at h
  · next hnull =>
    obtain ⟨q, hq, h⟩ := bind_eq_ok.mp h
    cases h
    -- the empty start has no right side, so it is another state than the seed
    have hnew : Column.contains [seedCell G.algebra (.ofRule (startRule G.algebra goal))]
        (.predicted q.rule 0) = false := by
      rw [Bool.eq_false_iff, Ne, hsingle.contains_iff hG (.empty hnull hq)]
      rintro ⟨c, hc, heq⟩
      rw [List.mem_singleton.mp hc, emptyStart_eq_ok hq] at heq
      cases congrArg State.rule heq
    rw [seed_of_not_contains G.algebra hnew]
    refine ⟨⟨List.pairwise_append.mpr ⟨hsingle.distinct, List.pairwise_singleton _ _, ?_⟩, ?_⟩,
      fun _ => ⟨q, hq⟩, ?_⟩
    · intro a ha b hb hab
      rw [List.mem_singleton.mp hb] at hab
      have hcontains := Column.contains_iff.mpr ⟨a, ha, hab⟩
      exact Bool.noConfusion (hnew.symm.trans hcontains)
    · intro c hc
      rcases List.mem_append.mp hc with hc | hc
      · exact hsingle.fits c hc
      · rw [List.mem_singleton.mp hc]
        exact fits_empty hnull hq
    · intro c
      rw [List.mem_append, List.mem_singleton, List.mem_singleton]
      refine or_congr_right ⟨fun hc => ⟨hnull, q, hq, hc⟩, fun ⟨_, q', hq', hc⟩ => ?_⟩
      rw [hq] at hq'
      cases hq'
      exact hc
  · next hnull =>
    cases h
    refine ⟨hsingle, fun hyes => absurd hyes hnull, fun c => ?_⟩
    rw [List.mem_singleton]
    exact ⟨Or.inl, fun hc => hc.elim id fun hc => absurd hc.1 hnull⟩

/-- Only the start symbol stands in the first column before prediction. -/
theorem Seeded.lhs_eq {base : Column P W} (h : Seeded G goal base) {c : Cell P W} (hc : c ∈ base) :
    c.state.rule.lhs = .start := by
  rcases (h.mem c).mp hc with rfl | ⟨_, q, hq, rfl⟩
  · rfl
  · rw [emptyStart_eq_ok hq]
    rfl

/-! ## Columns one after another -/

/-- How a column came about from the columns before it and what scans had left in it. -/
structure Finished (G : Grammar P W) (goal : Category) (past : List (Column P W)) (k : Nat)
    (read : Payload → Prop) (base mid col : Column P W) (order : List (State P W)) : Prop where
  swept : Swept G goal k read (pastColumn past k) base
  completed : Completed G goal past (k + 1) base mid order
  closed : Closed past (k + 1) mid
  core : (completeBest G.algebra past (k + 1) mid).map Cell.core = mid.map Cell.core
  /-- What was scanned or completed has found something. -/
  kernel : ∀ s ∈ mid.states, s.dot ≠ 0
  predicted : Predicted G goal (k + 1) (completeBest G.algebra past (k + 1) mid) col

/-- How a column came about from the columns before it and the one token between. -/
structure Grown (G : Grammar P W) (goal : Category) (past : List (Column P W)) (k : Nat)
    (token : Payload) (base mid col : Column P W) (order : List (State P W)) : Prop
    extends Finished G goal past k (· = token) base mid col order where
  scanned : Scanned G goal k token (pastColumn past k) base

omit [DecidableEq P] [DecidableEq W] [Probability P] in
/-- Cells of columns with the same cores, one by one. -/
theorem exists_mem_of_core_eq {col col' : Column P W}
    (h : col.map Cell.core = col'.map Cell.core) {c : Cell P W} (hc : c ∈ col) :
    ∃ c' ∈ col', c'.state = c.state ∧ c'.forward = c.forward ∧ c'.inner = c.inner := by
  have hmem : Cell.core c ∈ col'.map Cell.core := h ▸ List.mem_map_of_mem hc
  obtain ⟨c', hc', heq⟩ := List.mem_map.mp hmem
  simp only [Cell.core, Prod.mk.injEq] at heq
  exact ⟨c', hc', heq⟩

omit [Probability P] in
theorem distinct_of_core_eq {col col' : Column P W} (h : col.map Cell.core = col'.map Cell.core)
    (hd : col.Distinct) : col'.Distinct := by
  have hstates : col.states.Pairwise fun a b => ¬ (a == b) = true := List.pairwise_map.mpr hd
  rw [states_eq_of_core_eq h] at hstates
  exact List.pairwise_map.mp hstates

theorem shaped_of_core_eq {k : Nat} {col col' : Column P W}
    (h : col.map Cell.core = col'.map Cell.core) (hcol : Shaped G goal k col) :
    Shaped G goal k col' := by
  refine ⟨distinct_of_core_eq h hcol.distinct, fun c hc => ?_⟩
  obtain ⟨c', hc', hstate, _⟩ := exists_mem_of_core_eq h.symm hc
  rw [← hstate]
  exact hcol.fits c' hc'

theorem Finished.shaped {past : List (Column P W)} {k : Nat} {read : Payload → Prop}
    {base mid col : Column P W} {order : List (State P W)}
    (h : Finished G goal past k read base mid col order) :
    Shaped G goal (k + 1) (completeBest G.algebra past (k + 1) mid) :=
  shaped_of_core_eq h.core.symm h.completed.filled.shaped

/-- **What scans have left is completed and predicted from.** -/
theorem finished_of_swept [PositiveSums P] (hG : G.Compiled solver) (hgoal : goal ≠ .start)
    {past : List (Column P W)} (hpast : PastShaped G goal past) {k : Nat} {read : Payload → Prop}
    {base : Column P W} (hswept : Swept G goal k read (pastColumn past k) base) :
    ∃ order, Finished G goal past k read base (completeScores G past (k + 1) base)
      (predict G (k + 1) (complete G past (k + 1) base)) order := by
  obtain ⟨order, hcompleted⟩ := completed_completeScores hG hpast hswept.shaped
  have hclosed := hcompleted.closed hG hgoal hpast hswept
  have hcore := map_completeBest hG hgoal hpast hcompleted.filled.shaped hclosed
  have hshaped := shaped_of_core_eq hcore.symm hcompleted.filled.shaped
  have hkernel : ∀ s ∈ Column.states (completeScores G past (k + 1) base), s.dot ≠ 0 := by
    intro s hs
    rcases (hcompleted.filled.mem_states _).mp hs with hs | ⟨m, _, rfl⟩
    · obtain ⟨c, hc, rfl⟩ := List.mem_map.mp hs
      obtain ⟨cell, _, _, _, _, hstate, _⟩ := hswept.moved c hc
      rw [hstate]
      exact Nat.succ_ne_zero _
    · exact Nat.succ_ne_zero _
  refine ⟨order, hswept, hcompleted, hclosed, hcore, hkernel, predicted_predict hG hshaped ?_⟩
  intro c hc hdot
  refine absurd hdot (hkernel c.state ?_)
  rw [← states_eq_of_core_eq hcore]
  exact List.mem_map_of_mem hc

/-- **Every step of a run grows a column.** -/
theorem grown_of_scan [PositiveSums P] (hG : G.Compiled solver) (hgoal : goal ≠ .start)
    {past : List (Column P W)} (hpast : PastShaped G goal past) {k : Nat} {token : Payload}
    {base : Column P W} {found : List (State P W)}
    (hscan : scan G (k + 1) token (pastColumn past k) [] = (base, .ok found)) :
    ∃ mid order, Grown G goal past k token base mid
      (predict G (k + 1) (complete G past (k + 1) base)) order := by
  obtain ⟨hscanned, _⟩ := scanned_of_scan (hpast k) hscan
  obtain ⟨order, hfinished⟩ := finished_of_swept hG hgoal hpast hscanned.swept
  exact ⟨_, order, hfinished, hscanned⟩

/-- The columns that a parser builds one after another, whatever scans had left in a column when it
was completed. -/
inductive Course (G : Grammar P W) (goal : Category) : List (Column P W) → Prop
  | start {column : Column P W} (hgoal : goal ≠ .start) (hseeds : seeds G goal = .ok column) :
      Course G goal [predict G 0 column]
  | next {columns : List (Column P W)} {base : Column P W} {k : Nat}
      (hcourse : Course G goal columns) (hk : columns.length = k + 1)
      (hbase : Swept G goal k (fun _ => True) (pastColumn columns k) base) :
      Course G goal (columns ++ [predict G (k + 1) (complete G columns (k + 1) base)])

theorem Course.goal_ne {columns : List (Column P W)} (h : Course G goal columns) :
    goal ≠ .start := by
  induction h with
  | start hgoal => exact hgoal
  | next _ _ _ ih => exact ih

theorem Course.length_pos {columns : List (Column P W)} (h : Course G goal columns) :
    0 < columns.length := by
  cases h <;> simp

theorem Course.pastShaped [PositiveSums P] (hG : G.Compiled solver) {columns : List (Column P W)}
    (h : Course G goal columns) : PastShaped G goal columns := by
  induction h with
  | start hgoal hseeds =>
    have hseeded := seeded_of_seeds hG hseeds
    have hpredicted := predicted_predict hG hseeded.shaped fun c hc _ => hseeded.lhs_eq hc
    have hnil : PastShaped G goal ([] : List (Column P W)) := fun k => .nil k
    exact hnil.snoc hpredicted.shaped
  | next hcourse hk hbase ih =>
    obtain ⟨order, hfinished⟩ := finished_of_swept hG hcourse.goal_ne ih hbase
    refine ih.snoc ?_
    rw [hk]
    exact hfinished.predicted.shaped

/-- The first column. -/
theorem Course.seeded [PositiveSums P] (hG : G.Compiled solver) {columns : List (Column P W)}
    (h : Course G goal columns) :
    ∃ base, Seeded G goal base ∧ Predicted G goal 0 base (pastColumn columns 0) := by
  induction h with
  | start hgoal hseeds =>
    have hseeded := seeded_of_seeds hG hseeds
    exact ⟨_, hseeded, predicted_predict hG hseeded.shaped fun c hc _ => hseeded.lhs_eq hc⟩
  | next hcourse _ _ ih =>
    rw [pastColumn_append_left hcourse.length_pos]
    exact ih

/-- **The stages of every other column.** -/
theorem Course.finished [PositiveSums P] (hG : G.Compiled solver) {columns : List (Column P W)}
    (h : Course G goal columns) {k : Nat} (hk : k + 1 < columns.length) :
    ∃ base mid order, Finished G goal (columns.take (k + 1)) k (fun _ => True) base mid
      (pastColumn columns (k + 1)) order := by
  induction h with
  | start => exact absurd hk (by simp)
  | @next columns base j hcourse hj hbase ih =>
    rw [List.length_append, List.length_singleton] at hk
    rcases Nat.lt_or_ge (k + 1) columns.length with hlt | hge
    · rw [pastColumn_append_left hlt, List.take_append_of_le_length (Nat.le_of_lt hlt)]
      exact ih hlt
    · have hkj : k = j := by omega
      subst hkj
      obtain ⟨order, hfinished⟩ :=
        finished_of_swept hG hcourse.goal_ne (hcourse.pastShaped hG) hbase
      refine ⟨base, completeScores G columns (k + 1) base, order, ?_⟩
      have hlast := pastColumn_append_self columns
        (predict G (k + 1) (complete G columns (k + 1) base))
      have hbefore : (columns ++ [predict G (k + 1) (complete G columns (k + 1) base)]).take
          columns.length = columns := List.take_left
      rw [hj] at hlast hbefore
      rw [hlast, hbefore]
      exact hfinished

/-- A run is a course in which every scan started from an empty column. -/
theorem Run.course [PositiveSums P] (hG : G.Compiled solver) {tokens : List Payload}
    {columns : List (Column P W)} (h : Run G goal tokens columns) : Course G goal columns := by
  induction h with
  | start hgoal hseeds => exact .start hgoal hseeds
  | step hrun hscan ih =>
    rw [hrun.length] at hscan ⊢
    obtain ⟨hscanned, _⟩ := scanned_of_scan (ih.pastShaped hG _) hscan
    exact .next ih hrun.length ⟨hscanned.shaped, fun c hc => by
      obtain ⟨p, hp, token, _, hmoved⟩ := hscanned.swept.moved c hc
      exact ⟨p, hp, token, trivial, hmoved⟩⟩

theorem Run.pastShaped [PositiveSums P] (hG : G.Compiled solver) {tokens : List Payload}
    {columns : List (Column P W)} (h : Run G goal tokens columns) : PastShaped G goal columns :=
  (h.course hG).pastShaped hG

/-- The first column of a run. -/
theorem Run.seeded [PositiveSums P] (hG : G.Compiled solver) {tokens : List Payload}
    {columns : List (Column P W)} (h : Run G goal tokens columns) :
    ∃ base, Seeded G goal base ∧ Predicted G goal 0 base (pastColumn columns 0) :=
  (h.course hG).seeded hG

/-- **The stages of every other column of a run.** -/
theorem Run.grown [PositiveSums P] (hG : G.Compiled solver) {tokens : List Payload}
    {columns : List (Column P W)} (h : Run G goal tokens columns) {k : Nat} {token : Payload}
    (hk : tokens[k]? = some token) :
    ∃ base mid order, Grown G goal (columns.take (k + 1)) k token base mid
      (pastColumn columns (k + 1)) order := by
  induction h with
  | start hgoal hseeds => cases hk
  | @step tokens columns token' column s scanned hrun hscan ih =>
    have hlen := hrun.length
    rcases Nat.lt_or_ge k tokens.length with hlt | hge
    · rw [List.getElem?_append_left hlt] at hk
      rw [pastColumn_append_left (by omega), List.take_append_of_le_length (by omega)]
      exact ih hk
    · rw [List.getElem?_append_right hge] at hk
      have hkeq : k = tokens.length := by
        by_contra hne
        rw [List.getElem?_eq_none (by rw [List.length_singleton]; omega)] at hk
        cases hk
      subst hkeq
      rw [Nat.sub_self] at hk
      cases hk
      rw [hlen] at hscan ⊢
      obtain ⟨mid, order, hgrown⟩ := grown_of_scan hG hrun.goal_ne (hrun.pastShaped hG) hscan
      refine ⟨column, mid, order, ?_⟩
      rw [← hlen, pastColumn_append_self, hlen, List.take_append_of_le_length (by omega),
        List.take_of_length_le (by omega)]
      exact hgrown

end StochasticGrammar.Parser
