import StochasticGrammar.Proofs.Run

/-!
# One step and what it leaves alone

A step reads the column of the parser's own position and writes only the column behind it. What the
rest of a chart looks like does not matter to it, so two parsers whose columns agree position by
position go on alike, whichever of them has more empty columns at its end.

> `Agree.step`: agreeing parsers give the same answer to a token and agree afterwards.

> `agree_of_refused`: after a refused token the parser agrees with the one before it.

> `column_step_of_le`: a step leaves every column up to the parser's position as it was.
-/

namespace StochasticGrammar

variable {P W : Type}

/-! ## Columns of a chart that grows -/

namespace Chart

/-- The columns of a chart that grows stay, and the new ones are empty. -/
theorem column_ensure (chart : Chart P W) (k j : Nat) :
    (chart.ensure k).column j = chart.column j :=
  Parser.pastColumn_append_replicate chart.columns _ j

theorem lt_length_ensure (chart : Chart P W) (k : Nat) : k < (chart.ensure k).length := by
  simp only [length, ensure, List.length_append, List.length_replicate]
  omega

/-- Replacing one column leaves the others alone. -/
theorem column_setColumn {chart : Chart P W} {k : Nat} (hk : k < chart.length)
    (col : Column P W) (j : Nat) :
    (chart.setColumn k col).column j = if j = k then col else chart.column j := by
  unfold column setColumn
  by_cases h : j = k
  · subst h
    rw [if_pos rfl, List.getElem?_set_self hk]
    rfl
  · rw [if_neg h, List.getElem?_set_ne fun he => h he.symm]

/-- The chart with the column at a position written, which is added if it is not there. -/
theorem column_setColumn_ensure (chart : Chart P W) (k : Nat) (col : Column P W) (j : Nat) :
    ((chart.ensure k).setColumn k col).column j = if j = k then col else chart.column j := by
  rw [column_setColumn (chart.lt_length_ensure k), column_ensure]

/-- The columns before a position that the chart reaches depend on nothing behind it. -/
theorem take_eq_of_column_eq {c d : Chart P W} {k : Nat} (hc : k ≤ c.length) (hd : k ≤ d.length)
    (h : ∀ j, c.column j = d.column j) : c.columns.take k = d.columns.take k := by
  have hlen : (c.columns.take k).length = (d.columns.take k).length := by
    rw [List.length_take_of_le hc, List.length_take_of_le hd]
  refine List.ext_getElem hlen fun j hj hj' => ?_
  have hcj : j < c.columns.length := by
    rw [List.length_take] at hj
    omega
  have hdj : j < d.columns.length := by
    rw [List.length_take] at hj'
    omega
  have heq := h j
  unfold column at heq
  rw [List.getElem?_eq_getElem hcj, List.getElem?_eq_getElem hdj] at heq
  rw [List.getElem_take, List.getElem_take]
  exact heq

end Chart

/-- Columns that hold no more states hold no more of them together. -/
theorem countStates_mono {cols cols' : List (Column P W)}
    (h : ∀ k, (Parser.pastColumn cols k).length ≤ (Parser.pastColumn cols' k).length) :
    countStates cols ≤ countStates cols' := by
  induction cols generalizing cols' with
  | nil => exact Nat.zero_le _
  | cons col cols ih =>
    cases cols' with
    | nil =>
      -- all columns of the longer list are empty
      have hcol : col.length ≤ 0 := h 0
      have hrest : countStates cols ≤ countStates ([] : List (Column P W)) :=
        ih fun k => h (k + 1)
      rw [countStates] at hrest ⊢
      rw [countStates]
      omega
    | cons col' cols' =>
      have hcol : col.length ≤ col'.length := h 0
      have hrest : countStates cols ≤ countStates cols' := ih fun k => h (k + 1)
      rw [countStates, countStates]
      omega

namespace Parser

/-! ## Parsers that agree -/

/-- Two parsers that differ at most in how many empty columns follow the last one that holds a
state. -/
structure Agree (p q : Parser P W) : Prop where
  grammar : p.grammar = q.grammar
  goal : p.goal = q.goal
  position : p.position = q.position
  prefixScore : p.prefixScore = q.prefixScore
  column : ∀ k, p.chart.column k = q.chart.column k

theorem Agree.refl (p : Parser P W) : Agree p p :=
  ⟨rfl, rfl, rfl, rfl, fun _ => rfl⟩

theorem Agree.symm {p q : Parser P W} (h : Agree p q) : Agree q p :=
  ⟨h.grammar.symm, h.goal.symm, h.position.symm, h.prefixScore.symm, fun k => (h.column k).symm⟩

theorem Agree.trans {p q r : Parser P W} (h : Agree p q) (h' : Agree q r) : Agree p r :=
  ⟨h.grammar.trans h'.grammar, h.goal.trans h'.goal, h.position.trans h'.position,
    h.prefixScore.trans h'.prefixScore, fun k => (h.column k).trans (h'.column k)⟩

/-- No column behind the parser's position holds a state. -/
def Clear (p : Parser P W) : Prop :=
  ∀ k, p.position < k → p.chart.column k = []

theorem Clear.of_agree {p q : Parser P W} (hp : Clear p) (h : Agree q p) : Clear q := by
  intro k hk
  rw [h.column, hp k (h.position ▸ hk)]

/-- The final states of a position are read off its column. -/
theorem finalStates_congr {c d : Chart P W} (h : ∀ k, c.column k = d.column k) (position : Nat) :
    finalStates c position = finalStates d position := by
  unfold finalStates Chart.completed
  rw [h]

/-! ## The outcomes of a step -/

/-- The parser with the next column written. -/
def write (p : Parser P W) (column : Column P W) : Parser P W :=
  { p with chart := (p.chart.ensure (p.position + 1)).setColumn (p.position + 1) column }

/-- A parser writes the column after its position. -/
theorem column_write (p : Parser P W) (column : Column P W) (j : Nat) :
    (p.write column).chart.column j
      = if j = p.position + 1 then column else p.chart.column j :=
  Chart.column_setColumn_ensure p.chart (p.position + 1) column j

theorem Agree.write {p q : Parser P W} (h : Agree p q) (column : Column P W) :
    Agree (p.write column) (q.write column) := by
  refine ⟨h.grammar, h.goal, h.position, h.prefixScore, fun k => ?_⟩
  rw [column_write, column_write, h.position, h.column k]

/-- The parser with room for one more column. -/
def widen (p : Parser P W) : Parser P W :=
  { p with chart := p.chart.ensure (p.position + 1) }

/-- A longer chart does not tell parsers apart. -/
theorem agree_widen (p : Parser P W) : Agree p.widen p :=
  ⟨rfl, rfl, rfl, rfl, Chart.column_ensure p.chart _⟩

variable [DecidableEq P] [DecidableEq W]

/-- What a token meets: the scan from the parser's own column into the next one. -/
def meets (p : Parser P W) (token : Payload) :
    Column P W × Except Pattern.Error (List (State P W)) :=
  scan p.grammar (p.position + 1) token (p.chart.column p.position)
    (p.chart.column (p.position + 1))

/-- Parsers that agree meet a token alike. -/
theorem Agree.meets {p q : Parser P W} (h : Agree p q) (token : Payload) :
    p.meets token = q.meets token := by
  unfold Parser.meets
  rw [h.grammar, h.position, h.column, h.column]

/-- The parser after a token that some states took: the scanned column completed and predicted. -/
def moved (p : Parser P W) (column : Column P W) (scanned : List (State P W)) : Parser P W :=
  let past := (p.chart.ensure (p.position + 1)).columns.take (p.position + 1)
  { p.write (predict p.grammar (p.position + 1)
        (complete p.grammar past (p.position + 1) column)) with
    position := p.position + 1
    prefixScore := p.grammar.algebra.sum (scanned.map (column.forward p.grammar.algebra)) }

/-- Parsers that agree also agree after they have moved. -/
theorem Agree.moved {p q : Parser P W} (h : Agree p q) (column : Column P W)
    (scanned : List (State P W)) : Agree (p.moved column scanned) (q.moved column scanned) := by
  have hpast : (p.chart.ensure (p.position + 1)).columns.take (p.position + 1)
      = (q.chart.ensure (q.position + 1)).columns.take (p.position + 1) := by
    refine Chart.take_eq_of_column_eq (Nat.le_of_lt (Chart.lt_length_ensure _ _)) ?_ fun j => ?_
    · rw [h.position]
      exact Nat.le_of_lt (Chart.lt_length_ensure _ _)
    · rw [Chart.column_ensure, Chart.column_ensure, h.column]
  unfold Parser.moved
  rw [hpast, h.grammar, h.position]
  have hwrite := h.write (predict q.grammar (q.position + 1) (complete q.grammar
    ((q.chart.ensure (q.position + 1)).columns.take (q.position + 1)) (q.position + 1) column))
  exact ⟨hwrite.grammar, hwrite.goal, rfl, rfl, hwrite.column⟩

/-- **What a step can do.** A faulty pattern leaves the next column as it was scanned so far; a
token that no state takes leaves nothing but room for a column; any other token moves the parser. -/
theorem step_cases (p : Parser P W) (token : Payload) :
    (∃ column e, p.meets token = (column, .error e) ∧
      p.step token = (p.write column, .error e)) ∨
    (∃ column, p.meets token = (column, .ok []) ∧ p.step token = (p.widen, .ok false)) ∨
    ∃ column s scanned, p.meets token = (column, .ok (s :: scanned)) ∧
      p.step token = (p.moved column (s :: scanned), .ok true) := by
  cases h : p.meets token with
  | mk column found =>
    have hscan := h
    unfold meets at hscan
    unfold step
    simp only [Chart.column_ensure, hscan]
    rcases found with e | (_ | ⟨s, scanned⟩)
    · exact Or.inl ⟨column, e, rfl, rfl⟩
    · exact Or.inr (Or.inl ⟨column, rfl, rfl⟩)
    · exact Or.inr (Or.inr ⟨column, s, scanned, rfl, rfl⟩)

variable {p q : Parser P W} {token : Payload}

/-- A step that ends in an error leaves what it had scanned. -/
theorem eq_write_of_step {e : Pattern.Error} (h : p.step token = (q, .error e)) :
    ∃ column, p.meets token = (column, .error e) ∧ q = p.write column := by
  rcases step_cases p token with
    ⟨column, e', hmeets, hstep⟩ | ⟨column, _, hstep⟩ | ⟨column, s, scanned, _, hstep⟩ <;>
    rw [hstep] at h <;> cases h
  exact ⟨column, hmeets, rfl⟩

/-- A step that refuses its token only makes room. -/
theorem eq_widen_of_step (h : p.step token = (q, .ok false)) : q = p.widen := by
  rcases step_cases p token with
    ⟨column, e, _, hstep⟩ | ⟨column, _, hstep⟩ | ⟨column, s, scanned, _, hstep⟩ <;>
    rw [hstep] at h <;> cases h
  rfl

/-- A step that takes its token moves over what it scanned. -/
theorem eq_moved_of_step (h : p.step token = (q, .ok true)) :
    ∃ column scanned, p.meets token = (column, .ok scanned) ∧ q = p.moved column scanned := by
  rcases step_cases p token with
    ⟨column, e, _, hstep⟩ | ⟨column, _, hstep⟩ | ⟨column, s, scanned, hmeets, hstep⟩ <;>
    rw [hstep] at h <;> cases h
  exact ⟨column, s :: scanned, hmeets, rfl⟩

/-- A refused token is as if it had not been offered. -/
theorem agree_of_refused (h : p.step token = (q, .ok false)) : Agree q p := by
  rw [eq_widen_of_step h]
  exact agree_widen p

/-- A token that was taken moves the parser by one position. -/
theorem position_of_taken (h : p.step token = (q, .ok true)) : q.position = p.position + 1 := by
  obtain ⟨column, scanned, _, rfl⟩ := eq_moved_of_step h
  rfl

/-- **The past is frozen**: no step, whatever its outcome, changes a column up to the parser's
position. -/
theorem column_step_of_le (p : Parser P W) (token : Payload) {j : Nat} (hj : j ≤ p.position) :
    (p.step token).1.chart.column j = p.chart.column j := by
  have hne : j ≠ p.position + 1 := by omega
  rcases step_cases p token with
    ⟨column, e, _, hstep⟩ | ⟨column, _, hstep⟩ | ⟨column, s, scanned, _, hstep⟩
  · rw [hstep, column_write, if_neg hne]
  · rw [hstep]
    exact (agree_widen p).column j
  · rw [hstep]
    exact (column_write p _ j).trans (if_neg hne)

/-- **Agreeing parsers go on alike.** -/
theorem Agree.step (h : Agree p q) (token : Payload) :
    (p.step token).2 = (q.step token).2 ∧ Agree (p.step token).1 (q.step token).1 := by
  have hmeets := h.meets token
  rcases step_cases p token with
    ⟨column, e, hp, hstep⟩ | ⟨column, hp, hstep⟩ | ⟨column, s, scanned, hp, hstep⟩ <;>
  rcases step_cases q token with
    ⟨column', e', hq, hstep'⟩ | ⟨column', hq, hstep'⟩ | ⟨column', s', scanned', hq, hstep'⟩ <;>
  rw [hp, hq] at hmeets <;> cases hmeets <;> rw [hstep, hstep']
  · exact ⟨rfl, h.write column⟩
  · exact ⟨rfl, (agree_widen p).trans (h.trans (agree_widen q).symm)⟩
  · exact ⟨rfl, h.moved column (s :: scanned)⟩

/-- A parser that takes a token leaves the columns behind its new position empty. -/
theorem Clear.of_taken (hp : Clear p) (h : p.step token = (q, .ok true)) : Clear q := by
  obtain ⟨column, scanned, _, rfl⟩ := eq_moved_of_step h
  intro k hk
  have hlt : p.position + 1 < k := hk
  exact ((column_write p _ k).trans (if_neg (by omega))).trans (hp k (by omega))

/-! ## What is read off a parser -/

section Reading

variable {c d : Chart P W}

/-- Trees are read off the columns. -/
theorem children_congr (G : Grammar P W) (h : ∀ k, c.column k = d.column k) (fuel : Nat)
    (s : State P W) : children G c fuel s = children G d fuel s := by
  induction fuel generalizing s with
  | zero => rfl
  | succ fuel ih =>
    have hbest : c.best? s = d.best? s := by
      unfold Chart.best?
      rw [h]
    simp only [children, hbest, ih]

/-- The best parse depends on nothing but the columns: the fuel of the way back counts states, and
empty columns have none. -/
theorem bestParse_congr (G : Grammar P W) (h : ∀ k, c.column k = d.column k) (position : Nat) :
    bestParse G c position = bestParse G d position := by
  have hsize : c.size = d.size :=
    Nat.le_antisymm (countStates_mono fun k => Nat.le_of_eq (congrArg List.length (h k)))
      (countStates_mono fun k => Nat.le_of_eq (congrArg List.length (h k).symm))
  have hbest : ∀ s, c.best? s = d.best? s := fun s => by
    unfold Chart.best?
    rw [h]
  simp only [bestParse, finalStates_congr h, bestTree, children_congr G h, hsize, hbest]

end Reading

/-- Two parsers that answer every question alike. -/
structure Alike (p q : Parser P W) : Prop where
  prefixProbability : p.prefixProbability? = q.prefixProbability?
  sentenceProbability : p.sentenceProbability? = q.sentenceProbability?
  isAccepted : p.isAccepted = q.isAccepted
  allowedTerminals : p.allowedTerminals = q.allowedTerminals
  bestParse : bestParse p.grammar p.chart p.position = bestParse q.grammar q.chart q.position

/-- **Agreeing parsers cannot be told apart.** -/
theorem Agree.alike (h : Agree p q) : Alike p q where
  prefixProbability := by
    unfold prefixProbability?
    rw [h.grammar, h.prefixScore]
  sentenceProbability := by
    have hinner : p.chart.inner q.grammar.algebra = q.chart.inner q.grammar.algebra := by
      funext s
      unfold Chart.inner
      rw [h.column]
    simp only [sentenceProbability?, h.grammar, h.position, finalStates_congr h.column, hinner]
  isAccepted := by
    unfold Parser.isAccepted
    rw [finalStates_congr h.column, h.position]
  allowedTerminals := by
    unfold Parser.allowedTerminals
    rw [h.grammar, h.position, h.column]
  bestParse := by
    rw [h.grammar, h.position, bestParse_congr _ h.column]

end Parser
end StochasticGrammar
