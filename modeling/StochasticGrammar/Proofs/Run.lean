import StochasticGrammar.Parser.Best
import StochasticGrammar.Proofs.Outcome

/-!
# Runs of a parser

A parser that takes token after token leaves behind a list of columns, and each new column depends
on the tokens only through the columns before it. `Run` is that process without the record around
it: a first column, then one scan, completion and prediction for each token. Everything that holds
of all charts is an induction over it.

> `Fed.run`: a parser fed some tokens successfully holds the columns of their run.

> `parse_eq_ok`: the chart of any token list is the run of its longest prefix that can be scanned,
> followed by empty columns.
-/

namespace StochasticGrammar.Parser

variable {P W : Type}

/-! ## Past columns -/

/-- A column that is left stays where it is when more columns come. -/
theorem pastColumn_append_left {past : List (Column P W)} {k : Nat} (hk : k < past.length)
    (more : List (Column P W)) : pastColumn (past ++ more) k = pastColumn past k := by
  unfold pastColumn
  rw [List.getElem?_append_left hk]

theorem pastColumn_append_self (past : List (Column P W)) (column : Column P W) :
    pastColumn (past ++ [column]) past.length = column := by
  unfold pastColumn
  rw [List.getElem?_append_right (Nat.le_refl _), Nat.sub_self]
  rfl

theorem pastColumn_of_ge {past : List (Column P W)} {k : Nat} (hk : past.length ≤ k) :
    pastColumn past k = [] := by
  unfold pastColumn
  rw [List.getElem?_eq_none hk]
  rfl

theorem pastColumn_take {past : List (Column P W)} {k n : Nat} (hk : k < n) :
    pastColumn (past.take n) k = pastColumn past k := by
  unfold pastColumn
  rw [List.getElem?_take_of_lt hk]

/-- Columns beyond the end count as empty, whether they are there or not. -/
theorem pastColumn_append_replicate (past : List (Column P W)) (n k : Nat) :
    pastColumn (past ++ List.replicate n []) k = pastColumn past k := by
  rcases Nat.lt_or_ge k past.length with hlt | hge
  · exact pastColumn_append_left hlt _
  · rw [pastColumn_of_ge hge, pastColumn, List.getElem?_append_right hge, List.getElem?_replicate]
    split <;> rfl

/-! ## Runs -/

variable [DecidableEq P] [DecidableEq W] [Probability P]

/-- The columns that a parser for a category builds while it takes the tokens. -/
inductive Run (G : Grammar P W) (goal : Category) : List Payload → List (Column P W) → Prop
  | start {column : Column P W} (hgoal : goal ≠ .start) (hseeds : seeds G goal = .ok column) :
      Run G goal [] [predict G 0 column]
  | step {tokens : List Payload} {columns : List (Column P W)} {token : Payload}
      {column : Column P W} {s : State P W} {scanned : List (State P W)}
      (hrun : Run G goal tokens columns)
      (hscan : scan G columns.length token (pastColumn columns tokens.length) []
        = (column, .ok (s :: scanned))) :
      Run G goal (tokens ++ [token])
        (columns ++ [predict G columns.length (complete G columns columns.length column)])

/-- A parser for a category that has taken the tokens one by one, each of them successfully. -/
inductive Fed (G : Grammar P W) (goal : Category) : List Payload → Parser P W → Prop
  | create {p : Parser P W} (h : create G goal = .ok p) : Fed G goal [] p
  | step {tokens : List Payload} {p p' : Parser P W} {token : Payload} (hfed : Fed G goal tokens p)
      (hstep : p.step token = (p', .ok true)) : Fed G goal (tokens ++ [token]) p'

variable {G : Grammar P W} {goal : Category}

/-- There is one column more than there are tokens. -/
theorem Run.length {tokens : List Payload} {columns : List (Column P W)}
    (h : Run G goal tokens columns) : columns.length = tokens.length + 1 := by
  induction h with
  | start => rfl
  | step _ _ ih => simp [ih]

/-- No parser is created for the start symbol itself. -/
theorem Run.goal_ne {tokens : List Payload} {columns : List (Column P W)}
    (h : Run G goal tokens columns) : goal ≠ .start := by
  induction h with
  | start hgoal => exact hgoal
  | step _ _ ih => exact ih

/-! ## From parsers to runs -/

/-- What a new parser is made of. -/
theorem create_eq_ok {p : Parser P W} (h : create G goal = .ok p) :
    goal ≠ .start ∧ ∃ column, seeds G goal = .ok column ∧
      p = ⟨G, goal, ⟨[predict G 0 column]⟩, 0, G.algebra.one⟩ := by
  unfold create at h
  by_cases hgoal : goal = .start
  · rw [if_pos hgoal] at h
    cases h
  · rw [if_neg hgoal] at h
    cases hseeds : seeds G goal with
    | error e =>
      rw [hseeds] at h
      cases h
    | ok column =>
      rw [hseeds] at h
      refine ⟨hgoal, column, rfl, ?_⟩
      injection h with h
      exact h.symm

/-- What a parser holds after it has been fed. -/
structure Holds (G : Grammar P W) (goal : Category) (tokens : List Payload) (p : Parser P W) :
    Prop where
  grammar : p.grammar = G
  position : p.position = tokens.length
  run : Run G goal tokens p.chart.columns

/-- A new parser holds the run over no tokens. -/
theorem holds_create {p : Parser P W} (h : create G goal = .ok p) : Holds G goal [] p := by
  obtain ⟨hgoal, column, hseeds, rfl⟩ := create_eq_ok h
  exact ⟨rfl, rfl, .start hgoal hseeds⟩

/-- One step extends the run, leaves an empty column behind, or meets a faulty pattern. -/
theorem Holds.step {tokens : List Payload} {p : Parser P W} (h : Holds G goal tokens p)
    (token : Payload) :
    (∃ p', p.step token = (p', .ok true) ∧ Holds G goal (tokens ++ [token]) p') ∨
    (∃ p', p.step token = (p', .ok false) ∧ p'.chart.columns = p.chart.columns ++ [[]] ∧
      ∃ column, scan G p.chart.columns.length token (pastColumn p.chart.columns tokens.length) []
        = (column, .ok [])) ∨
    ∃ p' e, p.step token = (p', .error e) := by
  have hlen := h.run.length
  have hk : p.position + 1 = p.chart.columns.length := by rw [h.position, hlen]
  have hensure : (p.chart.ensure p.chart.columns.length).columns = p.chart.columns ++ [[]] := by
    simp [Chart.ensure]
  have hnew : (p.chart.ensure p.chart.columns.length).column p.chart.columns.length = [] := by
    rw [Chart.column, hensure]
    simp
  have hlast : (p.chart.ensure p.chart.columns.length).column p.position
      = pastColumn p.chart.columns tokens.length := by
    rw [Chart.column, hensure, h.position]
    exact pastColumn_append_left (by omega) [[]]
  -- the step scans into a new column, which is empty
  unfold Parser.step
  simp only [hk, hnew, hlast, h.grammar]
  cases hscan : scan G p.chart.columns.length token
      (pastColumn p.chart.columns tokens.length) [] with
  | mk column found =>
    cases found with
    | error e => exact Or.inr (Or.inr ⟨_, e, rfl⟩)
    | ok scanned =>
      cases scanned with
      | nil => exact Or.inr (Or.inl ⟨_, rfl, hensure, column, rfl⟩)
      | cons s scanned =>
        refine Or.inl ⟨_, rfl, rfl, by simp [hlen], ?_⟩
        have hrun := Run.step h.run hscan
        simp only [Chart.setColumn, hensure]
        rw [List.take_left, List.set_append_right _ _ (Nat.le_refl _), Nat.sub_self]
        exact hrun

/-- **A fed parser holds the columns of a run.** -/
theorem Fed.holds {tokens : List Payload} {p : Parser P W} (h : Fed G goal tokens p) :
    Holds G goal tokens p := by
  induction h with
  | create h => exact holds_create h
  | step hfed hstep ih =>
    rcases ih.step _ with ⟨p', hp', hholds⟩ | ⟨p', hp', _⟩ | ⟨p', e, hp'⟩
    · rw [hstep] at hp'
      cases hp'
      exact hholds
    · rw [hstep] at hp'
      cases hp'
    · rw [hstep] at hp'
      cases hp'

/-! ## From charts to runs -/

/-- The columns of a token list: the run of the tokens that could be scanned, then empty columns for
the rest, whose first token no state could scan. -/
def Charted (G : Grammar P W) (goal : Category) (tokens : List Payload)
    (columns : List (Column P W)) : Prop :=
  ∃ taken rest past, tokens = taken ++ rest ∧ Run G goal taken past ∧
    columns = past ++ List.replicate rest.length [] ∧
    ∀ token more, rest = token :: more →
      ∃ column, scan G past.length token (pastColumn past taken.length) [] = (column, .ok [])

/-- Running over further tokens extends the run by them. -/
theorem Holds.run_eq_ok {taken rest : List Payload} {p p' : Parser P W}
    (h : Holds G goal taken p) (hrun : p.run rest = .ok p') :
    Charted G goal (taken ++ rest) (p'.chart.ensure (taken ++ rest).length).columns := by
  induction rest generalizing taken p with
  | nil =>
    cases hrun
    refine ⟨taken, [], p'.chart.columns, rfl, h.run, ?_, fun _ _ h => by cases h⟩
    simp [Chart.ensure, h.run.length]
  | cons token rest ih =>
    unfold Parser.run at hrun
    rcases h.step token with ⟨q, hq, hholds⟩ | ⟨q, hq, hcols, hscan⟩ | ⟨q, e, hq⟩
    · rw [hq] at hrun
      have hcharted := ih hholds hrun
      rw [List.append_assoc] at hcharted
      exact hcharted
    · rw [hq] at hrun
      cases hrun
      refine ⟨taken, token :: rest, p.chart.columns, rfl, h.run, ?_, ?_⟩
      · have hlen := h.run.length
        have hsplit : taken.length + (rest.length + 1) + 1 - (taken.length + 1 + 1)
            = rest.length := by omega
        simp [Chart.ensure, hcols, hlen, hsplit, List.replicate_succ]
      · rintro token' more heq
        cases heq
        exact hscan
    · rw [hq] at hrun
      cases hrun

/-- A chart is what a new parser leaves after its run, filled up to one column for every token. -/
theorem parse_eq_ok_iff {tokens : List Payload} {chart : Chart P W} :
    parse G goal tokens = .ok chart ↔ ∃ p p', create G goal = .ok p ∧ p.run tokens = .ok p' ∧
      p'.chart.ensure tokens.length = chart := by
  unfold parse
  simp only [bind_eq_ok, mapError_eq_ok]
  constructor
  · rintro ⟨p, hp, p', hp', hchart⟩
    cases hchart
    exact ⟨p, p', hp, hp', rfl⟩
  · rintro ⟨p, p', hp, hp', rfl⟩
    exact ⟨p, hp, p', hp', rfl⟩

/-- **The chart of a token list** is the run of the tokens that could be scanned, padded with empty
columns. -/
theorem parse_eq_ok {tokens : List Payload} {chart : Chart P W}
    (h : parse G goal tokens = .ok chart) : Charted G goal tokens chart.columns := by
  obtain ⟨p, p', hcreate, hrun, rfl⟩ := parse_eq_ok_iff.mp h
  exact (holds_create hcreate).run_eq_ok hrun

end StochasticGrammar.Parser
