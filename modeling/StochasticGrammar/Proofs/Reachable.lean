import StochasticGrammar.Proofs.Faults

/-!
# The parsers that can be come by

A parser may be offered any tokens. Some are taken, some are refused, and some meet a faulty
pattern, after which the next column holds what had been scanned before the fault. Whatever happens,
the columns up to the parser's position are finished ones, the next column holds nothing but cells
that were scanned, and there is nothing behind it.

> `Reachable.stands`: where a parser stands after any tokens.

> `Stands.finished`: how a token that is taken finishes the next column.
-/

namespace StochasticGrammar.Parser

variable {P W : Type} [DecidableEq P] [DecidableEq W]

/-- The columns up to the parser's position. -/
def past (p : Parser P W) : List (Column P W) :=
  p.chart.columns.take (p.position + 1)

omit [DecidableEq P] [DecidableEq W] in
theorem pastColumn_past (p : Parser P W) {k : Nat} (hk : k ≤ p.position) :
    pastColumn p.past k = p.chart.column k :=
  pastColumn_take (Nat.lt_succ_of_le hk)

variable [Probability P] {solver : Solver P} {G : Grammar P W} {goal : Category}
  {p q : Parser P W} {token : Payload}

/-- The parsers for a category that can be come by: a new one, what any token leaves of one, and one
that starts over. -/
inductive Reachable (G : Grammar P W) (goal : Category) : Parser P W → Prop
  | create {p : Parser P W} (h : create G goal = .ok p) : Reachable G goal p
  | step {p : Parser P W} (h : Reachable G goal p) (token : Payload) :
      Reachable G goal (p.step token).1
  | reset {p q : Parser P W} (h : Reachable G goal p) (hreset : p.reset = .ok q) :
      Reachable G goal q

omit [Probability P] in
/-- What a token leaves, when it is known to have been taken. -/
theorem step_eq_of_answer (h : (p.step token).2.toOption = some true) :
    p.step token = ((p.step token).1, .ok true) := by
  refine Prod.ext rfl ?_
  cases hanswer : (p.step token).2 with
  | error e =>
    rw [hanswer] at h
    cases h
  | ok b =>
    rw [hanswer] at h
    exact congrArg Except.ok (Option.some.inj h)

/-- Where a parser stands: on finished columns, with what was scanned in the next one. -/
structure Stands (G : Grammar P W) (goal : Category) (p : Parser P W) : Prop where
  grammar : p.grammar = G
  category : p.goal = goal
  length : p.position < p.chart.length
  course : Course G goal p.past
  next : Swept G goal p.position (fun _ => True) (p.chart.column p.position)
    (p.chart.column (p.position + 1))
  rest : ∀ k, p.position + 1 < k → p.chart.column k = []

namespace Stands

omit [DecidableEq P] [DecidableEq W] [Probability P] in
theorem length_past (hlen : p.position < p.chart.length) : p.past.length = p.position + 1 :=
  List.length_take_of_le hlen

/-- A new parser stands on its first column, with nothing scanned. -/
theorem of_create (h : Parser.create G goal = .ok p) : Stands G goal p := by
  obtain ⟨hgoal, column, hseeds, rfl⟩ := create_eq_ok h
  refine ⟨rfl, rfl, Nat.zero_lt_one, .start hgoal hseeds, .nil, fun k hk => ?_⟩
  exact pastColumn_of_ge (Nat.le_of_lt hk)

omit [DecidableEq P] [DecidableEq W] [Probability P] in
/-- The columns before the next one stay when it is written. -/
theorem past_write (hlen : p.position < p.chart.length) (column : Column P W) :
    (p.write column).past = p.past := by
  show ((p.chart.columns ++ _).set (p.position + 1) column).take (p.position + 1) = _
  rw [List.take_set_of_le (Nat.le_refl _), List.take_append_of_le_length hlen]
  rfl

omit [DecidableEq P] [DecidableEq W] [Probability P] in
theorem length_write (p : Parser P W) (column : Column P W) :
    p.position + 1 < (p.write column).chart.length := by
  show _ < ((p.chart.ensure (p.position + 1)).columns.set _ column).length
  rw [List.length_set]
  exact Chart.lt_length_ensure _ _

omit [DecidableEq P] [DecidableEq W] [Probability P] in
theorem past_ensure (hlen : p.position < p.chart.length) :
    (p.chart.ensure (p.position + 1)).columns.take (p.position + 1) = p.past :=
  List.take_append_of_le_length hlen

omit [Probability P] in
/-- The parser after a token that was taken has one column more. -/
theorem past_moved (hlen : p.position < p.chart.length) (column : Column P W)
    (scanned : List (State P W)) :
    (p.moved column scanned).past = p.past ++
      [predict p.grammar (p.position + 1) (complete p.grammar p.past (p.position + 1) column)] := by
  have hlt := length_write p (predict p.grammar (p.position + 1)
    (complete p.grammar p.past (p.position + 1) column))
  have hcolumn := column_write p (predict p.grammar (p.position + 1)
    (complete p.grammar p.past (p.position + 1) column)) (p.position + 1)
  have hpast := past_write hlen (predict p.grammar (p.position + 1)
    (complete p.grammar p.past (p.position + 1) column))
  unfold Parser.moved
  rw [past_ensure hlen]
  show List.take (p.position + 1 + 1) _ = _
  rw [List.take_add_one]
  rw [if_pos rfl, Chart.column, List.getElem?_eq_getElem hlt] at hcolumn
  rw [List.getElem?_eq_getElem hlt]
  exact congrArg₂ _ hpast (congrArg (fun c => [c]) hcolumn)

/-- The last column of a parser that stands is shaped. -/
theorem shaped [PositiveSums P] (hG : G.Compiled solver) (h : Stands G goal p) :
    Shaped G goal p.position (p.chart.column p.position) := by
  rw [← pastColumn_past p (Nat.le_refl _)]
  exact h.course.pastShaped hG p.position

/-- What a token meets leaves the next column swept. -/
theorem meets [PositiveSums P] (hG : G.Compiled solver) (h : Stands G goal p)
    {outcome : Column P W × Except Pattern.Error (List (State P W))}
    (hmeets : p.meets token = outcome) :
    Swept G goal p.position (fun _ => True) (p.chart.column p.position) outcome.1 := by
  rw [← hmeets, Parser.meets, h.grammar]
  exact h.next.scan hG (h.shaped hG) trivial fun c hc => hc

omit [DecidableEq P] [DecidableEq W] [Probability P] in
theorem column_write_next (p : Parser P W) (column : Column P W) :
    (p.write column).chart.column (p.position + 1) = column := by
  rw [column_write, if_pos rfl]

/-- A scan that was cut short stays in the next column. -/
theorem write (h : Stands G goal p) {column : Column P W}
    (hswept : Swept G goal p.position (fun _ => True) (p.chart.column p.position) column) :
    Stands G goal (p.write column) := by
  refine ⟨h.grammar, h.category, Nat.lt_of_succ_lt (length_write p column), ?_, ?_, fun k hk => ?_⟩
  · rw [past_write h.length]
    exact h.course
  · show Swept G goal p.position _ ((p.write column).chart.column p.position)
      ((p.write column).chart.column (p.position + 1))
    rw [column_write_here, column_write_next]
    exact hswept
  · have hk' : p.position + 1 < k := hk
    rw [column_write_of_ne column (Nat.ne_of_gt hk')]
    exact h.rest k hk'

/-- Making room leaves a parser where it stands. -/
theorem widen (h : Stands G goal p) : Stands G goal p.widen := by
  have hcolumn := (agree_widen p).column
  have hpast : p.widen.past = p.past := List.take_append_of_le_length h.length
  refine ⟨h.grammar, h.category, Nat.lt_of_succ_lt (Chart.lt_length_ensure _ _), ?_, ?_,
    fun k hk => ?_⟩
  · rw [hpast]
    exact h.course
  · show Swept G goal p.position _ (p.widen.chart.column p.position)
      (p.widen.chart.column (p.position + 1))
    rw [hcolumn, hcolumn]
    exact h.next
  · rw [hcolumn]
    exact h.rest k hk

/-- A token that is taken leaves nothing behind the parser's new position. -/
theorem clear_moved (h : Stands G goal p) (column : Column P W) (scanned : List (State P W)) :
    Clear (p.moved column scanned) :=
  fun k hk => (column_write_of_ne _ (Nat.ne_of_gt hk)).trans (h.rest k hk)

/-- A parser that moves over a swept column stands behind it. -/
theorem moved (h : Stands G goal p) {column : Column P W}
    (hswept : Swept G goal p.position (fun _ => True) (p.chart.column p.position) column)
    (scanned : List (State P W)) : Stands G goal (p.moved column scanned) := by
  have hclear := h.clear_moved column scanned
  refine ⟨h.grammar, h.category, length_write p _, ?_, ?_,
    fun k hk => hclear k (Nat.lt_trans (Nat.lt_succ_self _) hk)⟩
  · rw [past_moved h.length, h.grammar]
    refine .next h.course (length_past h.length) ?_
    rw [pastColumn_past p (Nat.le_refl _)]
    exact hswept
  · rw [hclear _ (Nat.lt_succ_self _)]
    exact .nil

/-- **Every token leaves the parser standing.** -/
theorem step [PositiveSums P] (hG : G.Compiled solver) (h : Stands G goal p) (token : Payload) :
    Stands G goal (p.step token).1 := by
  rcases step_cases p token with
    ⟨column, e, hmeets, hstep⟩ | ⟨column, _, hstep⟩ | ⟨column, s, scanned, hmeets, hstep⟩ <;>
    rw [hstep]
  · exact h.write (h.meets hG hmeets)
  · exact h.widen
  · exact h.moved (h.meets hG hmeets) _

end Stands

/-- **Where a parser stands**, whatever tokens it was offered. -/
theorem Reachable.stands [PositiveSums P] (hG : G.Compiled solver) (h : Reachable G goal p) :
    Stands G goal p := by
  induction h with
  | create h => exact .of_create h
  | step _ token ih => exact ih.step hG token
  | reset _ hreset ih =>
    unfold Parser.reset at hreset
    rw [ih.grammar, ih.category] at hreset
    exact .of_create hreset

/-- **How a token that is taken finishes the next column.** -/
theorem Stands.finished [PositiveSums P] (hG : G.Compiled solver) (h : Stands G goal p)
    (hstep : p.step token = (q, .ok true)) :
    ∃ base scanned order, p.meets token = (base, .ok scanned) ∧
      q.past = p.past ++ [q.chart.column (p.position + 1)] ∧
      q.chart.column (p.position + 1)
        = predict G (p.position + 1) (complete G p.past (p.position + 1) base) ∧
      Finished G goal p.past p.position (fun _ => True) base
        (completeScores G p.past (p.position + 1) base)
        (q.chart.column (p.position + 1)) order := by
  obtain ⟨base, scanned, hmeets, rfl⟩ := eq_moved_of_step hstep
  have hswept := h.meets hG hmeets
  rw [← pastColumn_past p (Nat.le_refl _)] at hswept
  obtain ⟨order, hfinished⟩ :=
    finished_of_swept hG h.course.goal_ne (h.course.pastShaped hG) hswept
  have hcolumn : (p.moved base scanned).chart.column (p.position + 1)
      = predict G (p.position + 1) (complete G p.past (p.position + 1) base) := by
    refine (column_write_next p _).trans ?_
    rw [past_ensure h.length, h.grammar]
  refine ⟨base, scanned, order, hmeets, ?_, hcolumn, ?_⟩
  · rw [past_moved h.length, hcolumn, h.grammar]
  · rw [hcolumn]
    exact hfinished

end StochasticGrammar.Parser
