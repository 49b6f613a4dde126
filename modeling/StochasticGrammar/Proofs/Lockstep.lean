import Mathlib.Algebra.BigOperators.Group.List.Basic
import StochasticGrammar.Proofs.Reachable

/-!
# Forward and inner scores in lockstep

Whatever is done to a state after it has been predicted is done to both of its scores: a scan hands
both on, and a completion multiplies both by the same factor before it adds them. So a state's
forward score is to its inner score as the forward score that its rule was predicted with is to the
rule's weight. Nothing but the laws of a commutative semiring is needed for that, and it holds of
whatever a parser has in its chart, also of what a faulty pattern left behind.

> `inStep_shift`, `Completed.inStep`, `Predicted.inStep`: one lemma for each stage of a column.

> `Reachable.steady`: every column of every parser.

> `forward_and_inner_scores_in_lockstep`: the equation, state by state.
-/

namespace StochasticGrammar

variable {P W R : Type} [CommSemiring R]

/-- Scores whose values in a commutative semiring add up and multiply as the scores do. Scores that
form a semiring of their own are their own values. -/
structure ScoreAlgebra.IsSemiring (A : ScoreAlgebra P W) (value : W → R) : Prop where
  zero : value A.zero = 0
  one : value A.one = 1
  add : ∀ a b, value (A.add a b) = value a + value b
  mul : ∀ a b, value (A.mul a b) = value a * value b

/-- Plain probabilities are a semiring. -/
theorem isSemiring_linearScores {K : Type} [Field K] [LinearOrder K] :
    (linearScores K).IsSemiring id where
  zero := rfl
  one := rfl
  add _ _ := rfl
  mul _ _ := rfl

/-! ## Cells -/

/-- A cell's forward score is to its inner score as one number is to another. -/
def Cell.InRatio (value : W → R) (begun weight : R) (c : Cell P W) : Prop :=
  value c.forward * weight = begun * value c.inner

namespace Cell.InRatio

variable {A : ScoreAlgebra P W} {value : W → R} {begun weight : R} {c d : Cell P W}

theorem fresh (hA : A.IsSemiring value) (s : State P W) :
    (Cell.fresh A s).InRatio value begun weight := by
  show value A.zero * weight = begun * value A.zero
  rw [hA.zero, zero_mul, mul_zero]

/-- What is added to both scores may be the scores of another such cell, times one factor. -/
theorem gain (hA : A.IsSemiring value) (hc : c.InRatio value begun weight) {forward inner : W}
    (factor : R) (hd : d.InRatio value begun weight)
    (hforward : value forward = value d.forward * factor)
    (hinner : value inner = value d.inner * factor) :
    ((c.addForward A forward).addInner A inner).InRatio value begun weight := by
  show value (A.add c.forward forward) * weight = begun * value (A.add c.inner inner)
  unfold Cell.InRatio at hc hd
  rw [hA.add, hA.add, hforward, hinner, add_mul, mul_add, hc, mul_right_comm, hd, mul_assoc]

theorem offer (hc : c.InRatio value begun weight) (b : Backpointer P W) :
    (c.offer A b).InRatio value begun weight := by
  unfold Cell.InRatio
  rw [Cell.offer_forward, Cell.offer_inner]
  exact hc

theorem receive (hA : A.IsSemiring value) (hc : c.InRatio value begun weight)
    {m : Parser.Move P W} (hm : m.cell.InRatio value begun weight) :
    (m.receive A c).InRatio value begun weight :=
  hc.gain hA (value m.factor) hm (hA.mul _ _) (hA.mul _ _)

theorem foldl_receive (hA : A.IsSemiring value) {ms : List (Parser.Move P W)}
    (hms : ∀ m ∈ ms, m.cell.InRatio value begun weight) (hc : c.InRatio value begun weight) :
    (ms.foldl (Parser.Move.receive A) c).InRatio value begun weight :=
  List.foldlRecOn ms _ hc fun _ hd m hm => hd.receive hA (hms m hm)

end Cell.InRatio

namespace Parser

variable [DecidableEq P] [DecidableEq W]

/-! ## Columns -/

/-- The score that the rule of a state was predicted with. -/
def begun (A : ScoreAlgebra P W) (value : W → R) (columns : List (Column P W)) (s : State P W) :
    R :=
  value ((pastColumn columns s.origin).forward A (.predicted s.rule s.origin))

/-- The state of a cell has been predicted where it starts, and its scores are in step with what it
was predicted with. -/
structure InStep (A : ScoreAlgebra P W) (value : W → R) (columns : List (Column P W))
    (c : Cell P W) : Prop where
  start : State.predicted c.state.rule c.state.origin ∈ (pastColumn columns c.state.origin).states
  ratio : c.InRatio value (begun A value columns c.state) (value c.state.rule.weight)

namespace InStep

variable {A : ScoreAlgebra P W} {value : W → R} {columns columns' : List (Column P W)}
    {c d : Cell P W}

/-- Only the column in which the state starts matters. -/
theorem congr (h : InStep A value columns c)
    (heq : pastColumn columns' c.state.origin = pastColumn columns c.state.origin) :
    InStep A value columns' c := by
  refine ⟨?_, ?_⟩
  · rw [heq]
    exact h.start
  · unfold begun
    rw [heq]
    exact h.ratio

/-- A cell that was moved, with scores in the same ratio. -/
theorem moved (h : InStep A value columns c) {k : Nat} (hstate : d.state = c.state.advance k)
    (hratio : d.InRatio value (begun A value columns c.state) (value c.state.rule.weight)) :
    InStep A value columns d := by
  refine ⟨?_, ?_⟩
  · rw [hstate]
    exact h.start
  · rw [hstate]
    exact hratio

/-- A cell that differs in its best derivation only. -/
theorem of_scores_eq (h : InStep A value columns c) (hstate : c.state = d.state)
    (hforward : c.forward = d.forward) (hinner : c.inner = d.inner) : InStep A value columns d := by
  refine ⟨?_, ?_⟩
  · rw [← hstate]
    exact h.start
  · have hratio := h.ratio
    unfold Cell.InRatio at hratio ⊢
    rwa [hstate, hforward, hinner] at hratio

/-- A state that has found nothing is in step with itself. -/
theorem of_predicted (hA : A.IsSemiring value) {col : Column P W} {k : Nat} {r : Rule P W}
    (hcol : pastColumn columns k = col) (hdistinct : col.Distinct) (hc : c ∈ col)
    (hstate : c.state = .predicted r k) (hinner : c.inner = A.add A.zero r.weight) :
    InStep A value columns c := by
  have hself : State.predicted c.state.rule c.state.origin = c.state := by rw [hstate]; rfl
  have horigin : pastColumn columns c.state.origin = col := by rw [hstate]; exact hcol
  have hweight : value c.inner = value c.state.rule.weight := by
    rw [hinner, hA.add, hA.zero, zero_add, hstate]
    rfl
  refine ⟨?_, ?_⟩
  · rw [horigin, hself]
    exact List.mem_map_of_mem hc
  · unfold Cell.InRatio begun
    rw [horigin, hself, hweight, Column.forward_eq_cell, Column.cell_of_mem A hdistinct hc]

end InStep

variable [Probability P] {solver : Solver P} {G : Grammar P W} {goal : Category} {value : W → R}
  {columns : List (Column P W)} {col : Column P W}

namespace Shaped

variable {k : Nat}

/-- The cell of a state, also where the state is not there yet. -/
theorem cell_state (hG : G.Compiled solver) (h : Shaped G goal k col) {s : State P W}
    (hs : ChartRule G goal s.rule) : (col.cell G.algebra s).state = s := by
  unfold Column.cell
  cases hfind : col.find? s with
  | none => rfl
  | some c =>
    obtain ⟨hc, hcs⟩ := Column.mem_of_find? hfind
    exact (State.beq_iff_eq (discrete_chartRule hG) (h.fits c hc).rule hs).mp hcs

/-- A state that is not there yet is in any ratio. -/
theorem inRatio (hA : G.algebra.IsSemiring value) (hG : G.Compiled solver) (h : Shaped G goal k col)
    (hcol : ∀ c ∈ col, InStep G.algebra value columns c) {s : State P W}
    (hs : ChartRule G goal s.rule) : (col.cell G.algebra s).InRatio value
      (begun G.algebra value columns s) (value s.rule.weight) := by
  have hstate := h.cell_state hG hs
  unfold Column.cell at hstate ⊢
  cases hfind : col.find? s with
  | none => exact .fresh hA s
  | some c =>
    rw [hfind] at hstate
    have hratio := (hcol c (Column.mem_of_find? hfind).1).ratio
    rwa [show c.state = s from hstate] at hratio

end Shaped

/-! ## Stages of a column -/

/-- A scan hands both scores on. -/
theorem inStep_shift (hA : G.algebra.IsSemiring value) (hG : G.Compiled solver) {k : Nat}
    (hshaped : Shaped G goal (k + 1) col) (hcol : ∀ c ∈ col, InStep G.algebra value columns c)
    {cell : Cell P W} (hcell : InStep G.algebra value columns cell)
    (hrule : ChartRule G goal cell.state.rule) (token : Payload) :
    ∀ c ∈ shift G.algebra (k + 1) token cell col, InStep G.algebra value columns c := by
  have hs : ChartRule G goal (cell.state.advance (k + 1)).rule := hrule
  have hstate := hshaped.cell_state hG hs
  have hratio : (((col.cell G.algebra (cell.state.advance (k + 1))).addForward G.algebra
      cell.forward).addInner G.algebra cell.inner).InRatio value
        (begun G.algebra value columns cell.state) (value cell.state.rule.weight) :=
    (hshaped.inRatio hA hG hcol hs).gain hA 1 hcell.ratio (mul_one _).symm (mul_one _).symm
  intro c hc
  unfold shift at hc
  rcases Column.mem_alter G.algebra hshaped.distinct hc with ⟨hc, _⟩ | rfl
  · exact hcol c hc
  · cases cell.best with
    | none => exact hcell.moved hstate hratio
    | some b => exact hcell.moved ((Cell.offer_state ..).trans hstate) (hratio.offer _)

/-- A scan keeps a column in step, also where a faulty pattern cuts it short. -/
theorem Swept.inStep_scan (hA : G.algebra.IsSemiring value) (hG : G.Compiled solver) {k : Nat}
    {read : Payload → Prop} {token : Payload} {prev cells : Column P W}
    (h : Swept G goal k read prev col) (hread : read token) (hshaped : Shaped G goal k prev)
    (hprev : ∀ c ∈ prev, InStep G.algebra value columns c)
    (hcol : ∀ c ∈ col, InStep G.algebra value columns c) (hcells : ∀ c ∈ cells, c ∈ prev) :
    ∀ c ∈ (Parser.scan G (k + 1) token cells col).1, InStep G.algebra value columns c := by
  refine (scan_induction (p := fun col => Swept G goal k read prev col ∧
    ∀ c ∈ col, InStep G.algebra value columns c) ?_ ⟨h, hcol⟩).2
  rintro cell hmem htakes col ⟨hswept, hcol⟩
  have hcell := hcells cell hmem
  exact ⟨hswept.shift hG hshaped hread hcell htakes, inStep_shift hA hG hswept.shaped hcol
    (hprev cell hcell) (hshaped.fits cell hcell).rule token⟩

/-- A completion multiplies both scores by one factor. -/
theorem Completed.inStep [PositiveSums P] (hA : G.algebra.IsSemiring value) (hG : G.Compiled solver)
    (hpast : ∀ j, ∀ c ∈ pastColumn columns j, InStep G.algebra value columns c) {k : Nat}
    {base : Column P W} (hshaped : Shaped G goal k base)
    (hbase : ∀ c ∈ base, InStep G.algebra value columns c) {order : List (State P W)}
    (h : Completed G goal columns k base col order) :
    ∀ c ∈ col, InStep G.algebra value columns c := by
  have hmove : ∀ m ∈ order.flatMap fun d => moves G columns d (col.inner G.algebra d),
      InStep G.algebra value columns m.cell := by
    intro m hm
    obtain ⟨d, _, hm⟩ := List.mem_flatMap.mp hm
    exact hpast _ m.cell (mem_moves hG hm).1
  intro c hc
  have hrule := (h.filled.shaped.fits c hc).rule
  -- a move leads from the same rule, and from where the state itself starts
  have hratio : (col.cell G.algebra c.state).InRatio value (begun G.algebra value columns c.state)
      (value c.state.rule.weight) := by
    rw [h.filled.cell c.state hrule]
    refine .foldl_receive hA (fun m hm => ?_) (hshaped.inRatio hA hG hbase hrule)
    obtain ⟨hm, hmc⟩ := List.mem_filter.mp hm
    rw [← of_decide_eq_true hmc]
    exact (hmove m hm).ratio
  rw [Column.cell_of_mem G.algebra h.filled.shaped.distinct hc] at hratio
  refine ⟨?_, hratio⟩
  rcases (h.filled.mem_states c.state).mp (List.mem_map_of_mem hc) with hin | ⟨m, hm, hmc⟩
  · obtain ⟨b, hb, hbc⟩ := List.mem_map.mp hin
    rw [← hbc]
    exact (hbase b hb).start
  · rw [← hmc]
    exact (hmove m hm).start

/-- Prediction adds states that have found nothing. -/
theorem Predicted.inStep (hA : G.algebra.IsSemiring value) {k : Nat} {base : Column P W}
    (h : Predicted G goal k base col) (hk : pastColumn columns k = col)
    (hbase : ∀ c ∈ base, InStep G.algebra value columns c) :
    ∀ c ∈ col, InStep G.algebra value columns c := by
  intro c hc
  rcases h.cases c hc with hin | ⟨_, _, q, _, hpredicted⟩
  · exact hbase c hin
  · exact .of_predicted hA hk h.shaped.distinct hc hpredicted.state hpredicted.inner

/-! ## Columns one after another -/

/-- The first column. -/
theorem Seeded.inStep (hA : G.algebra.IsSemiring value) {base : Column P W}
    (hseeded : Seeded G goal base) (h : Predicted G goal 0 base col)
    (hcol : pastColumn columns 0 = col) : ∀ c ∈ col, InStep G.algebra value columns c := by
  refine h.inStep hA hcol fun c hc => ?_
  have hseed : ∃ q : Production P W, c = seedCell G.algebra q := by
    rcases (hseeded.mem c).mp hc with hstart | ⟨_, q, _, hempty⟩
    · exact ⟨_, hstart⟩
    · exact ⟨q, hempty⟩
  obtain ⟨q, rfl⟩ := hseed
  exact .of_predicted hA hcol h.shaped.distinct (h.keeps _ hc) rfl rfl

/-- Every column that is built out of columns in step. -/
theorem Finished.inStep [PositiveSums P] (hA : G.algebra.IsSemiring value) (hG : G.Compiled solver)
    {k : Nat} (hk : columns.length = k + 1)
    (hpast : ∀ j, ∀ c ∈ pastColumn columns j, InStep G.algebra value columns c)
    {read : Payload → Prop} {base mid : Column P W} {order : List (State P W)}
    (hbase : ∀ c ∈ base, InStep G.algebra value columns c)
    (h : Finished G goal columns k read base mid col order) :
    ∀ c ∈ col, InStep G.algebra value (columns ++ [col]) c := by
  have hlast := pastColumn_append_self columns col
  rw [hk] at hlast
  refine h.predicted.inStep hA hlast fun c hc => ?_
  obtain ⟨m, hm, hstate, hforward, hinner⟩ := exists_mem_of_core_eq h.core hc
  have hmid := h.completed.inStep hA hG hpast h.swept.shaped hbase m hm
  have horigin : m.state.origin < columns.length := by
    rw [hk]
    refine (h.completed.filled.shaped.fits m hm).origin_lt (Nat.pos_of_ne_zero ?_)
    exact h.kernel m.state (List.mem_map_of_mem hm)
  exact (hmid.congr (pastColumn_append_left horigin _)).of_scores_eq hstate hforward hinner

/-! ## Parsers -/

/-- Everything in a parser's chart is in step, also what faulty patterns left in the next column. -/
def Steady (value : W → R) (p : Parser P W) : Prop :=
  ∀ k, ∀ c ∈ p.chart.column k, InStep p.grammar.algebra value p.past c

variable {p q : Parser P W}

theorem Stands.steady_create [PositiveSums P] (hA : G.algebra.IsSemiring value)
    (hG : G.Compiled solver) (h : create G goal = .ok p) : Steady value p := by
  obtain ⟨_, base, hseeds, rfl⟩ := create_eq_ok h
  have hseeded := seeded_of_seeds hG hseeds
  have hpredicted := predicted_predict hG hseeded.shaped fun c hc _ => hseeded.lhs_eq hc
  intro k c hc
  have hk : k = 0 := by
    cases k with
    | zero => rfl
    | succ k => cases hc
  subst hk
  exact hseeded.inStep hA hpredicted rfl c hc

omit [Probability P] in
/-- What is written behind a parser has to be in step with the columns up to the parser. -/
theorem Steady.write (h : Steady value p) (hlen : p.position < p.chart.length) {column : Column P W}
    (hcolumn : ∀ c ∈ column, InStep p.grammar.algebra value p.past c) :
    Steady value (p.write column) := by
  intro k c hc
  rw [Stands.past_write hlen]
  rw [column_write] at hc
  split at hc
  · exact hcolumn c hc
  · exact h k c hc

omit [Probability P] in
theorem Steady.widen (h : Steady value p) (hlen : p.position < p.chart.length) :
    Steady value p.widen := by
  intro k c hc
  rw [(agree_widen p).column] at hc
  have hpast : p.widen.past = p.past := List.take_append_of_le_length hlen
  rw [hpast]
  exact h k c hc

/-- A token that is taken finishes the next column. -/
theorem Steady.moved [PositiveSums P] (hA : G.algebra.IsSemiring value) (hG : G.Compiled solver)
    (hstands : Stands G goal p) (h : Steady value p) {token : Payload}
    (hnext : ∀ c ∈ (p.meets token).1, InStep G.algebra value p.past c)
    (hstep : p.step token = (q, .ok true)) : Steady value q := by
  obtain ⟨base, scanned, order, hmeets, hpast, _, hfinished⟩ := hstands.finished hG hstep
  have hgrammar := hstands.grammar
  have hlen := Stands.length_past hstands.length
  obtain ⟨column, found, _, rfl⟩ := eq_moved_of_step hstep
  rw [hmeets] at hnext
  have hcolumns : ∀ j, ∀ c ∈ pastColumn p.past j, InStep G.algebra value p.past c := by
    intro j c hc
    by_cases hj : j ≤ p.position
    · rw [pastColumn_past p hj] at hc
      exact hgrammar ▸ h j c hc
    · rw [pastColumn_of_ge (by omega)] at hc
      cases hc
  have hlast := hfinished.inStep hA hG hlen hcolumns hnext
  intro k c hc
  rw [hpast]
  show InStep p.grammar.algebra value _ c
  rw [hgrammar]
  -- the columns before the new one are as they were, and those behind it are empty
  rcases Nat.lt_trichotomy k (p.position + 1) with hk | hk | hk
  · have hle : k ≤ p.position := by omega
    have hold : (p.moved column found).chart.column k = p.chart.column k :=
      (column_write p _ k).trans (if_neg (Nat.ne_of_lt hk))
    rw [hold, ← pastColumn_past p hle] at hc
    have hfits := hstands.course.pastShaped hG k
    have horigin := (hfits.fits c hc).origin_le
    exact (hcolumns k c hc).congr (pastColumn_append_left (by omega) _)
  · subst hk
    exact hlast c hc
  · rw [hstands.clear_moved column found k hk] at hc
    cases hc

/-- **Every token leaves a parser in step.** -/
theorem Steady.step [PositiveSums P] (hA : G.algebra.IsSemiring value) (hG : G.Compiled solver)
    (hstands : Stands G goal p) (h : Steady value p) (token : Payload) :
    Steady value (p.step token).1 := by
  have hgrammar := hstands.grammar
  have hnext : ∀ c ∈ (p.meets token).1, InStep G.algebra value p.past c := by
    unfold Parser.meets
    rw [hgrammar]
    exact hstands.next.inStep_scan hA hG trivial (hstands.shaped hG)
      (fun c hc => hgrammar ▸ h _ c hc) (fun c hc => hgrammar ▸ h _ c hc) fun c hc => hc
  rcases step_cases p token with
    ⟨column, e, hmeets, hstep⟩ | ⟨column, _, hstep⟩ | ⟨column, s, scanned, hmeets, hstep⟩
  · rw [hstep]
    rw [hmeets] at hnext
    exact h.write hstands.length (hgrammar ▸ hnext)
  · rw [hstep]
    exact h.widen hstands.length
  · rw [hstep]
    exact h.moved hA hG hstands hnext hstep

/-- **Every parser is in step**, whatever tokens it was offered. -/
theorem Reachable.steady [PositiveSums P] (hA : G.algebra.IsSemiring value) (hG : G.Compiled solver)
    (h : Reachable G goal p) : Steady value p := by
  induction h with
  | create h => exact Stands.steady_create hA hG h
  | step hp token ih => exact ih.step hA hG (hp.stands hG) token
  | reset hp hreset =>
    have hstands := hp.stands hG
    unfold Parser.reset at hreset
    rw [hstands.grammar, hstands.category] at hreset
    exact Stands.steady_create hA hG hreset

/-! ## The equation -/

/-- The two scores of every state in lockstep with those of the state that it began as. -/
def Lockstep (A : ScoreAlgebra P W) (value : W → R) (chart : Chart P W) : Prop :=
  ∀ k, ∀ s ∈ (chart.column k).states,
    State.predicted s.rule s.origin ∈ (chart.column s.origin).states ∧
    value (chart.forward A s) * value s.rule.weight
      = value (chart.forward A (.predicted s.rule s.origin)) * value (chart.inner A s)

/-- The cells of a parser's chart start no later than where the parser stands. -/
theorem Stands.fits_column [PositiveSums P] (hG : G.Compiled solver) (h : Stands G goal p) {k : Nat}
    {c : Cell P W} (hc : c ∈ p.chart.column k) :
    (p.chart.column k).Distinct ∧ c.state.position = k ∧ c.state.origin ≤ p.position := by
  rcases Nat.lt_trichotomy k (p.position + 1) with hk | hk | hk
  · have hle : k ≤ p.position := by omega
    have hshaped := h.course.pastShaped hG k
    rw [pastColumn_past p hle] at hshaped
    have hfits := hshaped.fits c hc
    exact ⟨hshaped.distinct, hfits.position, Nat.le_trans hfits.origin_le hle⟩
  · subst hk
    have hfits := h.next.shaped.fits c hc
    obtain ⟨prev, _, _, _, _, hstate, _⟩ := h.next.moved c hc
    have hdot : 0 < c.state.dot := by
      rw [hstate]
      exact Nat.succ_pos _
    exact ⟨h.next.shaped.distinct, hfits.position, Nat.le_of_lt_succ (hfits.origin_lt hdot)⟩
  · rw [h.rest k hk] at hc
    cases hc

theorem Reachable.lockstep [PositiveSums P] (hA : G.algebra.IsSemiring value)
    (hG : G.Compiled solver) (h : Reachable G goal p) : Lockstep G.algebra value p.chart := by
  have hstands := h.stands hG
  intro k s hs
  obtain ⟨c, hc, rfl⟩ := List.mem_map.mp hs
  obtain ⟨hdistinct, hposition, horigin⟩ := hstands.fits_column hG hc
  obtain ⟨hstart, hratio⟩ := h.steady hA hG k c hc
  rw [hstands.grammar] at hratio
  unfold Cell.InRatio begun at hratio
  rw [pastColumn_past p horigin] at hstart hratio
  refine ⟨hstart, ?_⟩
  unfold Chart.forward Chart.inner
  rw [hposition, Column.forward_eq_cell, Column.inner_eq_cell,
    Column.cell_of_mem G.algebra hdistinct hc]
  exact hratio

/-- Taking tokens until one is refused is one of the things a parser may be made to do. -/
theorem Reachable.run (h : Reachable G goal p) {tokens : List Payload}
    (hrun : p.run tokens = .ok q) : Reachable G goal q := by
  induction tokens generalizing p with
  | nil =>
    cases hrun
    exact h
  | cons token tokens ih =>
    have hstep := h.step token
    unfold Parser.run at hrun
    split at hrun
    · cases hrun
    · next heq =>
      cases hrun
      rwa [heq] at hstep
    · next heq =>
      rw [heq] at hstep
      exact ih hstep hrun

/-- **Forward and inner scores move in lockstep.** Let scores add up and multiply as in some
commutative semiring. Whatever a parser of a grammar was offered, taken or refused or met with a
faulty pattern, every state of its chart has the state at the start of its rule in the chart as
well, and its forward score times the weight of its rule is the forward score of that state times
its own inner score. So it is in the chart of every list of tokens. -/
theorem forward_and_inner_scores_in_lockstep [PositiveSums P] {A : ScoreAlgebra P W}
    (hG : G.Built solver A) (hA : A.IsSemiring value) :
    (∀ p, Reachable G goal p → Lockstep A value p.chart) ∧
      ∀ tokens chart, parse G goal tokens = .ok chart → Lockstep A value chart := by
  obtain ⟨hC, rfl⟩ := hG.compiled
  have hreachable := fun (p : Parser P W) (hp : Reachable G goal p) => hp.lockstep hA hC
  refine ⟨hreachable, fun tokens chart hparse => ?_⟩
  obtain ⟨p, q, hcreate, hrun, rfl⟩ := parse_eq_ok_iff.mp hparse
  have hlockstep := hreachable q (.run (.create hcreate) hrun)
  unfold Lockstep Chart.forward Chart.inner at hlockstep ⊢
  simp only [Chart.column_ensure]
  exact hlockstep

set_option maxRecDepth 100000 in
/-- The scores of the small grammar, whose unit rule derives two tokens in ever more ways. -/
theorem small_scores_in_lockstep :
    ∃ G chart, smallGrammar = .ok G ∧ parse G (.name "S") [.text "a", .text "a"] = .ok chart ∧
      Lockstep (linearScores ℚ) id chart ∧
      ∃ s ∈ (chart.column 2).states, s.dot = 2 ∧ chart.inner (linearScores ℚ) s ≠ 0 := by
  obtain ⟨G, chart, hG, hchart, hcheck⟩ := exists_smallChart [.text "a", .text "a"]
    (fun _ chart => (chart.column 2).states.any fun s =>
      decide (s.dot = 2 ∧ chart.inner (linearScores ℚ) s ≠ 0)) (by decide +kernel)
  obtain ⟨s, hs, hscore⟩ := List.any_eq_true.mp hcheck
  exact ⟨G, chart, hG, hchart,
    (forward_and_inner_scores_in_lockstep (built_smallGrammar hG) isSemiring_linearScores).2 _ _
      hchart, s, hs, of_decide_eq_true hscore⟩

end Parser
end StochasticGrammar
