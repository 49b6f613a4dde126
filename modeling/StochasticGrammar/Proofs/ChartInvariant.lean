import StochasticGrammar.Proofs.Exact
import StochasticGrammar.Proofs.IndexedCharts

/-!
# The representation of a chart

A chart may be asked for anything, in any order and for positions that it does not have. What it
then holds is settled by the calls alone, and is the same whether it keeps four tables for every
position or one column of cells.

> `IndexedChart.tables_follow_calls`: the tables of a chart, its answers and its refusals.
-/

namespace StochasticGrammar
namespace IndexedChart

variable {P W : Type} [DecidableEq P] [DecidableEq W] {A : ScoreAlgebra P W}
  {past : List (ChartCall P W)} {c : IndexedChart P W} {chart : Chart P W}

/-- The tables of a chart that was made by some calls. -/
structure Follows (A : ScoreAlgebra P W) (past : List (ChartCall P W)) (c : IndexedChart P W) :
    Prop where
  length : c.length = past.foldl ChartCall.lengthAfter 0
  waiting_length : c.waiting.length = c.items.length
  score_length : ∀ kind, (c.scores kind).length = c.items.length
  position : ∀ k, ∀ s ∈ c.states k, s.position = k
  /-- The states of a position are those that were named, in the order in which they were. -/
  states : ∀ k, c.states k = (named past k).eraseDups
  distinct : ∀ k, (c.states k).Pairwise fun s t => ¬ (s == t) = true
  /-- Neither kind of score is kept of a state that is not there. -/
  score_keys : ∀ kind k, ∀ s ∈ (tableAt (c.scores kind) k).keys, (c.states k).any (· == s) = true
  /-- What is filed under a symbol are the states that wait for it, all of them and in order. -/
  waiting : ∀ k x, c.waitingOn k x = if k < c.length
    then .ok ((c.states k).filter fun s => s.next?.any (· == x)) else .error .outOfRange
  waiting_distinct : ∀ k x ss, c.waitingOn k x = .ok ss → ss.Pairwise fun s t => ¬ (s == t) = true
  /-- Either score is the sum, from left to right, of what was given for it. -/
  score : ∀ kind s, c.score A kind s = A.sum (given (ChartCall.score? kind) past s)
  /-- The best derivation is the first of those offered that no other one beats. -/
  best : ∀ s, Ordered A (given ChartCall.candidate? past s) →
    c.best? s = unbeaten A (given ChartCall.candidate? past s)

/-- Four tables and one column for every position tell the same. -/
structure Agrees (A : ScoreAlgebra P W) (c : IndexedChart P W) (chart : Chart P W) : Prop where
  length : c.length = chart.length
  states : ∀ k, c.states k = (chart.column k).states
  contains : ∀ s, c.contains s = chart.contains s
  waiting : ∀ k x, c.waitingOn k x = chart.waitingFor k x
  forward : ∀ s, c.score A .forward s = chart.forward A s
  inner : ∀ s, c.score A .inner s = chart.inner A s
  best : ∀ s, c.best? s = chart.best? s
  /-- The next call is answered alike, or refused alike. -/
  answer : ∀ call, (c.perform A call).2 = (chart.perform A call).2

theorem Aligned.waitingOn_eq (h : Aligned c) (k : Nat) (x : Category) :
    c.waitingOn k x = if k < c.length
      then .ok ((c.states k).filter fun s => s.next?.any (· == x)) else .error .outOfRange := by
  unfold waitingOn
  by_cases hk : k < c.length
  · have hindex : c.waiting[k]? = some (tableAt c.waiting k) :=
      getElem?_eq_tableAt (by rwa [h.waiting_length])
    rw [hindex, if_pos hk]
    exact congrArg _ (h.index k x)
  · have hbeyond : c.waiting[k]? = none :=
      List.getElem?_eq_none (by rw [h.waiting_length]; exact Nat.le_of_not_lt hk)
    rw [hbeyond, if_neg hk]

namespace Keeps

theorem distinct (h : Keeps A past c) (k : Nat) :
    (c.states k).Pairwise fun s t => ¬ (s == t) = true := by
  rw [h.records.states_eq]
  exact pairwise_eraseDups _

theorem follows (h : Keeps A past c) : c.Follows A past where
  length := h.records.length_eq
  waiting_length := h.aligned.waiting_length
  score_length := h.aligned.score_length
  position := by
    intro k s hs
    have hany : (named past k).any (· == s) = true := by
      rw [← any_eraseDups, ← h.records.states_eq]
      exact List.any_eq_true.mpr ⟨s, hs, BEq.rfl⟩
    obtain ⟨t, ht, hts⟩ := List.any_eq_true.mp hany
    have hk : t.position = k := by simpa using (List.mem_filter.mp ht).2
    rw [← hk]
    exact ((State.beq_iff t s).mp hts).2.2.1.symm
  states := h.records.states_eq
  distinct := h.distinct
  score_keys := h.aligned.score_keys
  waiting := h.aligned.waitingOn_eq
  waiting_distinct := by
    intro k x ss hss
    rw [h.aligned.waitingOn_eq] at hss
    split at hss
    · cases hss
      exact (h.distinct k).filter _
    · cases hss
  score := h.records.score_eq
  best := by
    intro s hordered
    rw [h.records.best_eq, kept_eq_unbeaten hordered]

theorem agrees (h : Keeps A past c) (hchart : Chart.Records A past chart) : c.Agrees A chart := by
  have hlength : c.length = chart.length := h.records.length_eq.trans hchart.length_eq.symm
  have hstates : ∀ k, c.states k = (chart.column k).states :=
    fun k => (h.records.states_eq k).trans (hchart.states_eq k).symm
  have hscore : ∀ kind s, c.score A kind s = chart.score A kind s :=
    fun kind s => (h.records.score_eq kind s).trans (hchart.score_eq kind s).symm
  refine ⟨hlength, hstates, ?_, ?_, ?_, ?_, ?_, ?_⟩
  · intro s
    rw [h.contains, Chart.Records.contains hchart]
  · intro k x
    rw [h.aligned.waitingOn_eq, hstates, hlength]
    unfold Chart.waitingFor Chart.column
    by_cases hk : k < chart.length
    · have hcol : chart.columns[k]? = some chart.columns[k] := List.getElem?_eq_getElem hk
      rw [if_pos hk, hcol]
      rfl
    · have hcol : chart.columns[k]? = none := List.getElem?_eq_none (Nat.le_of_not_lt hk)
      rw [if_neg hk, hcol]
  · exact hscore .forward
  · exact hscore .inner
  · intro s
    rw [h.records.best_eq, hchart.best_eq]
  · intro call
    by_cases hfits : call.fits c.length = true
    · rw [(h.perform call hfits).2, (Chart.Records.perform hchart call (hlength ▸ hfits)).2]
    · have hrefused : call.fits c.length = false := Bool.eq_false_iff.mpr hfits
      rw [perform_of_not_fits hrefused, Chart.perform_of_not_fits (hlength ▸ hrefused)]

theorem refused_iff (h : Keeps A past c) (call : ChartCall P W) :
    (∃ e, (c.perform A call).2 = .error e) ↔ call.fits c.length = false := by
  constructor
  · intro hrefused
    obtain ⟨e, he⟩ := hrefused
    by_contra hfits
    rw [(h.perform call (Bool.not_eq_false _ ▸ hfits)).2] at he
    cases he
  · intro hfits
    exact ⟨.outOfRange, by rw [perform_of_not_fits hfits]⟩

end Keeps

/-- **The tables follow the calls.** Whatever a chart has been asked for: its tables have the same
length, no score is kept of a state that is not there, the index has exactly the states that wait,
each once and in order, every score is the sum of what was given for it, and the best derivation is
the first one that no other one beats. A call is refused just when the chart does not have the
position that it needs, and then the chart stays as it is. All of it is what a chart of columns
tells after the same calls. -/
theorem tables_follow_calls (A : ScoreAlgebra P W) (calls : List (ChartCall P W)) :
    let c := (empty : IndexedChart P W).performAll A calls
    c.Follows A (accepted 0 calls) ∧
      (∀ call, (∃ e, (c.perform A call).2 = .error e) ↔ call.fits c.length = false) ∧
      (∀ call e, (c.perform A call).2 = .error e → (c.perform A call).1 = c) ∧
      c.Agrees A ((Chart.empty : Chart P W).performAll A calls) := by
  intro c
  have hkeeps : Keeps A (accepted 0 calls) c := keeps_performAll A calls
  refine ⟨hkeeps.follows, hkeeps.refused_iff, ?_, hkeeps.agrees (Chart.records_performAll A calls)⟩
  intro call e he
  have hfits := (hkeeps.refused_iff call).mp ⟨e, he⟩
  rw [perform_of_not_fits hfits]

/-! ## A chart of fractions -/

omit [DecidableEq P] [DecidableEq W] in
/-- Numbers of an ordered field are always in order. -/
theorem ordered_linearScores {K : Type} [Field K] [LinearOrder K] (bs : List (Backpointer K K)) :
    Ordered (linearScores K) bs where
  asymm := by
    intro v w _ _ hvw hwv
    exact lt_asymm (of_decide_eq_true hvw) (of_decide_eq_true hwv)
  trans := by
    intro u v w _ _ _ huv hvw huw
    have hle : w ≤ u := le_trans (not_lt.mp fun h => hvw (decide_eq_true h))
      (not_lt.mp fun h => huv (decide_eq_true h))
    exact absurd (of_decide_eq_true huw) (not_lt.mpr hle)

/-- A state that waits for `X`. -/
def waitingState : State ℚ ℚ :=
  ⟨0, 0, 0, .given ⟨⟨.plain, .name "S", [.name "X"]⟩, 1 / 2, 1 / 2, [], 0⟩⟩

/-- A state behind it. -/
def distantState : State ℚ ℚ :=
  { waitingState with position := 1 }

/-- A derivation of that score. -/
def derivation (kind : StepKind) (score : ℚ) : Backpointer ℚ ℚ :=
  ⟨kind, score, none, none, none⟩

/-- Calls that come too early, calls that come in time and a tie. -/
def mixedCalls : List (ChartCall ℚ ℚ) :=
  [.add waitingState, .ensure 0, .addScore .forward waitingState (1 / 4),
    .addScore .inner distantState 1,
    .offer waitingState (derivation .seed (1 / 4)), .addScore .forward waitingState (1 / 2),
    .offer waitingState (derivation .scanned (1 / 2)), .add waitingState,
    .offer waitingState (derivation .completed (1 / 2))]

/-- The state that was named over and over is there once, with what the calls in time gave for it.
The later one of two equally good derivations is not kept, and what comes too early is lost. -/
theorem mixed_calls_leave :
    ∃ c, c = (empty : IndexedChart ℚ ℚ).performAll (linearScores ℚ) mixedCalls ∧
      c.states 0 = [waitingState] ∧ c.waitingOn 0 (.name "X") = .ok [waitingState] ∧
      c.score (linearScores ℚ) .forward waitingState = 3 / 4 ∧
      (c.best? waitingState).map (·.kind) = some .scanned ∧
      (c.perform (linearScores ℚ) (.addScore .inner distantState 1)).1 = c ∧
      (((Chart.empty : Chart ℚ ℚ).performAll (linearScores ℚ) mixedCalls).best? waitingState).map
        (·.kind) = some .scanned := by
  obtain ⟨hfollows, hrefused, hunchanged, hagrees⟩ :=
    tables_follow_calls (linearScores ℚ) mixedCalls
  have hstates : ((empty : IndexedChart ℚ ℚ).performAll (linearScores ℚ) mixedCalls).states 0
      = [waitingState] := (hfollows.states 0).trans (by decide +kernel)
  have hlength : ((empty : IndexedChart ℚ ℚ).performAll (linearScores ℚ) mixedCalls).length = 1 :=
    hfollows.length.trans (by decide +kernel)
  have hbest := hfollows.best waitingState (ordered_linearScores _)
  have hscanned : ((unbeaten (linearScores ℚ)
      (given ChartCall.candidate? (accepted 0 mixedCalls) waitingState)).map (·.kind))
      = some .scanned := by
    decide +kernel
  refine ⟨_, rfl, hstates, ?_, ?_, by rw [hbest, hscanned], ?_, ?_⟩
  · rw [hfollows.waiting, hstates, hlength]
    rfl
  · rw [hfollows.score]
    decide +kernel
  · obtain ⟨e, he⟩ := (hrefused (.addScore .inner distantState 1)).mpr (by rw [hlength]; rfl)
    exact hunchanged _ e he
  · rw [← hagrees.best, hbest, hscanned]

end IndexedChart
end StochasticGrammar
