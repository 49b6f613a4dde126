import StochasticGrammar.Proofs.Refusal
import StochasticGrammar.Proofs.TranslatedGrammar

/-!
# Parsing in translation

A parser over a translated grammar does, step by step, what the parser over the grammar does: it
compares the same symbols and the same scores and comes to the same decisions, so that its chart is
the translated chart.

> `parser_step`: one step in translation.

> `parse_grammar`: the chart of a translated grammar is the translated chart.

> `toOption_bestParse`: where symbols are not respelled, it holds the same best tree.
-/

namespace StochasticGrammar

/-- No step changes the grammar of a parser. -/
theorem Parser.grammar_step {P W : Type} [DecidableEq P] [DecidableEq W] [Probability P]
    (p : Parser P W) (token : Payload) : (p.step token).1.grammar = p.grammar := by
  unfold Parser.step
  dsimp only
  split <;> rfl

namespace Translation

variable {K W W' : Type} [Field K] [LinearOrder K] {A : ScoreAlgebra K W} {A' : ScoreAlgebra K W'}

/-! ## Questions about a grammar -/

section Questions

variable (T : Translation A A') {G : Grammar K W}

/-- A symbol is a terminal of a grammar in every spelling or in none. -/
theorem isTerminal_grammar (c : Category) :
    (T.grammar G).isTerminal (T.symbol c) = G.isTerminal c := by
  have hnames : (T.grammar G).names = G.names := T.keys_index G.index
  rw [Grammar.isTerminal, Grammar.isTerminal, hnames, T.isTerminalObject_symbol, T.contains_symbol,
    decide_eq_decide.mpr (not_congr (T.symbol_eq_start_iff c))]

theorem isNonterminal_grammar (c : Category) :
    (T.grammar G).isNonterminal (T.symbol c) = G.isNonterminal c := by
  have hnames : (T.grammar G).names = G.names := T.keys_index G.index
  rw [Grammar.isNonterminal, Grammar.isNonterminal, hnames, T.expands_symbol]

/-- The unit rules are translated to the unit rules. -/
theorem isUnit_grammar (r : Rule K W) : (T.grammar G).isUnit (T.rule r) = G.isUnit r := by
  rw [Grammar.isUnit, Grammar.isUnit, T.rhs_rule]
  rcases r.rhs with _ | ⟨y, _ | ⟨z, rest⟩⟩
  · rfl
  · exact T.isNonterminal_grammar y
  · rfl

/-- A category has the translated productions, in their order. -/
theorem productionsOf_grammar (x : Category) :
    (T.grammar G).productionsOf x = (G.productionsOf x).map T.production := by
  rw [Grammar.productionsOf, Grammar.productionsOf, grammar, Table.get?_map_values]
  cases Table.get? G.productions x <;> rfl

/-- A symbol has the same left corners, each with its score recoded. -/
theorem leftCornersOf_grammar (x : Category) :
    (T.grammar G).leftCornersOf (T.symbol x)
      = (G.leftCornersOf x).map fun corner => (corner.1, T.score corner.2) := by
  rw [Grammar.leftCornersOf, Grammar.leftCornersOf, T.get?_symbol, grammar, chains,
    Table.get?_map_values]
  cases Table.get? G.leftCorners x <;> rfl

/-- Unit chains lead to a category from the same categories, with their scores recoded. -/
theorem unitSources_grammar (x : Category) :
    (T.grammar G).unitSources x
      = (G.unitSources x).map fun source => (source.1, T.score source.2) := by
  rw [Grammar.unitSources, Grammar.unitSources,
    show (T.grammar G).unitChains = T.chains G.unitChains from rfl, chains, List.filterMap_map,
    List.map_filterMap]
  refine List.filterMap_congr fun row _ => ?_
  rw [Function.comp_apply, Table.get?_map_values, Option.map_map, Option.map_map]
  rfl

/-- A category can be empty in translation if and only if it could before. -/
theorem isNullable_grammar (x : Category) :
    (T.grammar G).isNullable (T.symbol x) = G.isNullable x :=
  T.contains_symbol G.nullable x

/-- How probably it is empty is a number and stays. -/
theorem emptyProbability_grammar (x : Category) :
    (T.grammar G).emptyProbability (T.symbol x) = G.emptyProbability x :=
  T.blind_massAt G.masses x

theorem bestEmptyProbability_grammar (x : Category) :
    (T.grammar G).bestEmptyProbability (T.symbol x) = G.bestEmptyProbability x :=
  (T.bestAt_choices G.choices (T.symbol x)).trans (T.blind_bestAt G.choices x)

/-- Its best empty derivation begins with the translated rule. -/
theorem bestEmptyRule?_grammar (x : Category) :
    (T.grammar G).bestEmptyRule? x = (G.bestEmptyRule? x).map T.rule := by
  rw [Grammar.bestEmptyRule?, Grammar.bestEmptyRule?, grammar, T.get?_choices, Option.map_map,
    Option.map_map]
  rfl

end Questions

/-! ## Charts -/

section Charts

variable (T : Translation A A')

theorem column_chart (chart : Chart K W) (k : Nat) :
    (T.chart chart).column k = T.column (chart.column k) :=
  T.pastColumn_column chart.columns k

/-- A chart grows to the same length in translation. -/
theorem ensure_chart (chart : Chart K W) (k : Nat) :
    (T.chart chart).ensure k = T.chart (chart.ensure k) := by
  rw [Chart.ensure, Chart.ensure, Translation.chart, Translation.chart, List.length_map,
    List.map_append, List.map_replicate]
  rfl

/-- A column of a chart is replaced in translation. -/
theorem setColumn_chart (chart : Chart K W) (k : Nat) (col : Column K W) :
    (T.chart chart).setColumn k (T.column col) = T.chart (chart.setColumn k col) := by
  rw [Chart.setColumn, Chart.setColumn, Translation.chart, Translation.chart, List.map_set]

/-- The same states are final. -/
theorem finalStates_chart (chart : Chart K W) (k : Nat) :
    Parser.finalStates (T.chart chart) k = (Parser.finalStates chart k).map T.state := by
  unfold Parser.finalStates Chart.completed
  rw [T.column_chart, column, List.map_map, List.filter_filter, List.filter_filter,
    show (fun c : Cell K W' => c.state) ∘ T.cell = T.state ∘ fun c => c.state from rfl,
    ← List.map_map, List.filter_map]
  refine congrArg (List.map T.state) (List.filter_congr fun s _ => ?_)
  simp only [Function.comp_apply, T.isComplete_state]
  simp only [state, T.lhs_rule]

end Charts

/-! ## Queues -/

section Queues

variable (T : Translation A A') {G : Grammar K W}

/-- A state has to be completed in translation if and only if it had to be before. -/
theorem isPending_state (k : Nat) (s : State K W) :
    Parser.isPending (T.grammar G) k (T.state s) = Parser.isPending G k s := by
  rw [Parser.isPending, Parser.isPending, T.isComplete_state,
    show (T.state s).rule = T.rule s.rule from rfl, T.isUnit_grammar]
  rfl

/-- States queue up in the same order, which is that of their origins. -/
theorem enqueue_state (s : State K W) (q : List (State K W)) :
    Parser.enqueue (T.state s) (q.map T.state) = (Parser.enqueue s q).map T.state := by
  induction q with
  | nil => rfl
  | cons t q ih =>
    rw [List.map_cons, Parser.enqueue, Parser.enqueue, ih,
      show (T.state t).origin = t.origin from rfl, show (T.state s).origin = s.origin from rfl]
    split <;> rfl

end Queues

variable [DecidableEq W] [DecidableEq W']

section Scores

variable (T : Translation A A')

/-- A derivation is looked up in the chart in translation. -/
theorem best?_chart (chart : Chart K W) (s : State K W) :
    (T.chart chart).best? (T.state s) = (chart.best? s).map T.pointer := by
  rw [Chart.best?, T.column_chart, T.best?_column]
  rfl

theorem inner_chart (chart : Chart K W) (s : State K W) :
    (T.chart chart).inner A' (T.state s) = T.score (chart.inner A s) := by
  rw [Chart.inner, T.column_chart, T.inner_column]
  rfl

end Scores

/-! ## Prediction -/

section Prediction

variable {G : Grammar K W} (T : Translation G.algebra A')

/-- One production is predicted in translation, with the scores on the way to it recoded. -/
theorem predictProduction_column (k : Nat) (forward chain : W) (col : Column K W)
    (q : Production K W) :
    Parser.predictProduction A' k (T.score forward) (T.score chain) (T.column col) (T.production q)
      = T.column (Parser.predictProduction G.algebra k forward chain col q) := by
  have htimes : A'.times [T.score forward, T.score chain, (T.production q).rule.weight]
      = T.score (G.algebra.times [forward, chain, q.rule.weight]) := by
    rw [show (T.production q).rule.weight = T.score q.rule.weight from T.weight_rule q.rule]
    exact T.times_score [forward, chain, q.rule.weight]
  unfold Parser.predictProduction
  rw [htimes, show State.predicted (T.production q).rule k = T.state (.predicted q.rule k) from rfl]
  refine T.alter_column (fun c => ?_) _ _
  dsimp only
  rw [T.contains_column, T.addForward_cell]
  split
  · rw [show (T.production q).rule.weight = T.score q.rule.weight from T.weight_rule q.rule,
      T.addInner_cell]
    exact T.offer_cell ⟨.predicted, q.best, none, none, none⟩ _
  · rfl

/-- One state predicts in translation what it predicted before. -/
theorem predictFrom_column (k : Nat) (col : Column K W) (s : State K W) :
    Parser.predictFrom (T.grammar G) k (T.column col) (T.state s)
      = T.column (Parser.predictFrom G k col s) := by
  unfold Parser.predictFrom
  rw [show (T.state s).dot = s.dot from rfl,
    show (T.state s).rule.lhs = s.rule.lhs from T.lhs_rule _, T.next?_state]
  split
  · rfl
  · cases s.next? with
    | none => rfl
    | some z =>
      dsimp only [Option.map_some]
      rw [T.isNonterminal_grammar]
      split
      · rw [T.leftCornersOf_grammar, List.foldl_map]
        refine List.foldl_hom T.column fun col corner => ?_
        rw [T.productionsOf_grammar, List.foldl_map]
        refine List.foldl_hom T.column fun col q => ?_
        rw [show (T.grammar G).algebra = A' from rfl, T.forward_column]
        exact T.predictProduction_column k _ corner.2 col q
      · rfl

/-- **A column predicts in translation what it predicted before.** -/
theorem predict_column (k : Nat) (col : Column K W) :
    Parser.predict (T.grammar G) k (T.column col) = T.column (Parser.predict G k col) := by
  unfold Parser.predict
  rw [T.states_column, List.foldl_map]
  exact List.foldl_hom T.column fun col s => T.predictFrom_column k col s

end Prediction

/-! ## Scanning -/

section Scanning

variable {G : Grammar K W} (T : Translation G.algebra A')

/-- One state is moved over a token in translation. -/
theorem shift_column (k : Nat) (token : Payload) (c : Cell K W) (col : Column K W) :
    Parser.shift A' k token (T.cell c) (T.column col)
      = T.column (Parser.shift G.algebra k token c col) := by
  unfold Parser.shift
  refine T.alter_column (fun d => ?_) (c.state.advance k) col
  dsimp only
  rw [show (T.cell c).forward = T.score c.forward from rfl,
    show (T.cell c).inner = T.score c.inner from rfl, T.addForward_cell, T.addInner_cell,
    show (T.cell c).best = c.best.map T.pointer from rfl]
  cases c.best with
  | none => rfl
  | some b => exact T.offer_cell ⟨.scanned, b.score, some c.state, none, some token⟩ _

/-- **The same states take a token**, and the same pattern cuts a scan short. -/
theorem scan_column (k : Nat) (token : Payload) (cells col : Column K W) :
    Parser.scan (T.grammar G) k token (T.column cells) (T.column col)
      = (T.column (Parser.scan G k token cells col).1,
          (Parser.scan G k token cells col).2.map (List.map T.state)) := by
  induction cells generalizing col with
  | nil => rfl
  | cons c cells ih =>
    rw [column, List.map_cons, Parser.scan, Parser.scan, ← column,
      show (T.cell c).state.next? = c.state.next?.map T.symbol from T.next?_state c.state]
    cases c.state.next? with
    | none => exact ih col
    | some x =>
      dsimp only [Option.map_some]
      rw [T.isTerminal_grammar, T.accepts_symbol]
      split
      · cases x.accepts token with
        | error e => rfl
        | ok b =>
          cases b with
          | false => exact ih col
          | true =>
            dsimp only
            rw [show (T.grammar G).algebra = A' from rfl, T.shift_column, ih]
            generalize Parser.scan G k token cells (Parser.shift G.algebra k token c col) = out
            obtain ⟨out, found⟩ := out
            cases found <;> rfl
      · exact ih col

end Scanning

/-! ## Completion -/

section Completion

variable {G : Grammar K W} (T : Translation G.algebra A')

/-- A column under completion, in translation. -/
def agenda (agenda : Parser.Agenda K W) : Parser.Agenda K W' :=
  ⟨T.column agenda.column, agenda.pending.map T.state⟩

/-- One waiting state is moved over a complete one, by a factor that is recoded. -/
theorem moveOver_agenda (k : Nat) (factor : W) (a : Parser.Agenda K W) (c : Cell K W) :
    Parser.moveOver (T.grammar G) k (T.score factor) (T.agenda a) (T.cell c)
      = T.agenda (Parser.moveOver G k factor a c) := by
  unfold Parser.moveOver agenda
  dsimp only
  rw [show (T.cell c).state.advance k = T.state (c.state.advance k) from rfl, T.contains_column,
    T.isComplete_state,
    show (T.state (c.state.advance k)).rule = T.rule (c.state.advance k).rule from rfl,
    T.isUnit_grammar, T.enqueue_state]
  congr 1
  · refine T.alter_column (fun d => ?_) _ _
    rw [show (T.grammar G).algebra = A' from rfl,
      show (T.cell c).forward = T.score c.forward from rfl,
      show (T.cell c).inner = T.score c.inner from rfl, T.mul, T.mul, T.addForward_cell,
      T.addInner_cell]
  · split <;> rfl

/-- A complete state moves the same waiting states in translation. -/
theorem completeState_agenda (past : List (Column K W)) (k : Nat) (done : State K W)
    (a : Parser.Agenda K W) :
    Parser.completeState (T.grammar G) (past.map T.column) k (T.state done) (T.agenda a)
      = T.agenda (Parser.completeState G past k done a) := by
  unfold Parser.completeState
  dsimp only
  rw [show (T.state done).rule.lhs = done.rule.lhs from T.lhs_rule _, T.unitSources_grammar,
    List.foldl_map]
  refine List.foldl_hom T.agenda fun a' source => ?_
  rw [show (T.state done).origin = done.origin from rfl, T.pastColumn_column,
    T.waiting_column, column, List.foldl_map]
  refine List.foldl_hom T.agenda fun a' c => ?_
  have hinner : (T.agenda a).column.inner (T.grammar G).algebra (T.state done)
      = T.score (a.column.inner G.algebra done) := T.inner_column a.column done
  rw [hinner, show (T.grammar G).algebra = A' from rfl, T.mul]
  exact T.moveOver_agenda k _ a' c

/-- The queue is worked off in the same order, and as far as before if it is cut short. -/
theorem drain_agenda (past : List (Column K W)) (k fuel : Nat) (a : Parser.Agenda K W) :
    Parser.drain (T.grammar G) (past.map T.column) k fuel (T.agenda a)
      = T.column (Parser.drain G past k fuel a) := by
  induction fuel generalizing a with
  | zero => rfl
  | succ fuel ih =>
    obtain ⟨col, pending⟩ := a
    cases pending with
    | nil => rfl
    | cons done rest =>
      rw [Parser.drain, Parser.drain]
      show Parser.drain _ _ k fuel (Parser.completeState (T.grammar G) (past.map T.column) k
        (T.state done) (T.agenda ⟨col, rest⟩)) = _
      rw [T.completeState_agenda, ih]

/-- **The scores of a column are completed in translation.** -/
theorem completeScores_column (past : List (Column K W)) (k : Nat) (col : Column K W) :
    Parser.completeScores (T.grammar G) (past.map T.column) k (T.column col)
      = T.column (Parser.completeScores G past k col) := by
  have hpending : ((T.column col).states.filter (Parser.isPending (T.grammar G) k)).foldl
        (fun q s => Parser.enqueue s q) []
      = ((col.states.filter (Parser.isPending G k)).foldl (fun q s => Parser.enqueue s q) []).map
          T.state := by
    rw [T.states_column, List.filter_map, List.foldl_map,
      show Parser.isPending (T.grammar G) k ∘ T.state = Parser.isPending G k from
        funext (T.isPending_state k),
      show ([] : List (State K W')) = [].map T.state from rfl]
    exact List.foldl_hom (List.map T.state) fun q s => T.enqueue_state s q
  unfold Parser.completeScores
  rw [hpending, T.countStates_column,
    show (T.column col).length = col.length from List.length_map _]
  exact T.drain_agenda past k _ ⟨col, _⟩

/-- A column under improvement, in translation. -/
def improvement (work : Parser.Improvement K W) : Parser.Improvement K W' :=
  ⟨T.column work.column, work.improved.map T.state⟩

/-- A waiting state is offered the translated derivation and takes it if it did before. -/
theorem offerOver_improvement (k : Nat) (done : State K W) (score : W)
    (work : Parser.Improvement K W) (c : Cell K W) :
    Parser.offerOver A' k (T.state done) (T.score score) (T.improvement work) (T.cell c)
      = T.improvement (Parser.offerOver G.algebra k done score work c) := by
  unfold Parser.offerOver
  rw [show (T.cell c).best = c.best.map T.pointer from rfl]
  cases c.best with
  | none => rfl
  | some b =>
    have hcandidate :
        (⟨.completed, A'.mul (T.pointer b).score (T.score score), some (T.cell c).state,
          some (T.state done), none⟩ : Backpointer K W')
        = T.pointer ⟨.completed, G.algebra.mul b.score score, some c.state, some done, none⟩ := by
      rw [show (T.pointer b).score = T.score b.score from rfl, T.mul]
      rfl
    unfold improvement
    dsimp only [Option.map_some]
    rw [hcandidate, show (T.cell c).state.advance k = T.state (c.state.advance k) from rfl,
      T.find?_column, Option.all_map, T.isComplete_state]
    simp only [T.isImprovedBy_cell]
    congr 1
    · exact T.alter_column (fun d => T.offer_cell _ d) _ _
    · split
      · rw [List.map_append]
        rfl
      · rfl

/-- A complete state is offered to the same waiting states. -/
theorem improveOver_improvement (past : List (Column K W)) (k : Nat) (work : Parser.Improvement K W)
    (done : State K W) :
    Parser.improveOver A' (past.map T.column) k (T.improvement work) (T.state done)
      = T.improvement (Parser.improveOver G.algebra past k work done) := by
  unfold Parser.improveOver
  rw [show (T.improvement work).column.best? (T.state done)
    = (work.column.best? done).map T.pointer from T.best?_column work.column done]
  cases work.column.best? done with
  | none => rfl
  | some b =>
    dsimp only [Option.map_some]
    rw [show (T.state done).origin = done.origin from rfl,
      show (T.state done).rule.lhs = done.rule.lhs from T.lhs_rule _, T.pastColumn_column,
      T.waiting_column, column, List.foldl_map]
    exact List.foldl_hom T.improvement fun work c => T.offerOver_improvement k done b.score work c

/-- Best derivations are improved in the same order, and as often as before. -/
theorem improve_improvement (past : List (Column K W)) (k fuel : Nat)
    (work : Parser.Improvement K W) :
    Parser.improve A' (past.map T.column) k fuel (T.improvement work)
      = T.column (Parser.improve G.algebra past k fuel work) := by
  induction fuel generalizing work with
  | zero => rfl
  | succ fuel ih =>
    obtain ⟨col, improved⟩ := work
    cases improved with
    | nil => rfl
    | cons s improved =>
      rw [Parser.improve, Parser.improve, ← ih]
      refine congrArg (Parser.improve A' (past.map T.column) k fuel) ?_
      show ((s :: improved).map T.state).foldl _ (T.improvement ⟨col, []⟩) = _
      rw [List.foldl_map]
      exact List.foldl_hom T.improvement fun work done => T.improveOver_improvement past k work done

/-- **A column is completed in translation**, its scores first and its best derivations then. -/
theorem complete_column (past : List (Column K W)) (k : Nat) (col : Column K W) :
    Parser.complete (T.grammar G) (past.map T.column) k (T.column col)
      = T.column (Parser.complete G past k col) := by
  unfold Parser.complete
  rw [T.completeScores_column]
  unfold Parser.completeBest
  generalize Parser.completeScores G past k col = col
  have hqueue : (T.column col).states.filter (fun s => s.isComplete && decide (s.origin < k))
      = (col.states.filter fun s => s.isComplete && decide (s.origin < k)).map T.state := by
    rw [T.states_column, List.filter_map]
    refine congrArg (List.map T.state) (List.filter_congr fun s _ => ?_)
    rw [Function.comp_apply, T.isComplete_state]
    rfl
  rw [hqueue, T.countStates_column, show (T.column col).length = col.length from List.length_map _]
  exact T.improve_improvement past k _ ⟨col, _⟩

end Completion

/-! ## Parsers -/

section Parsers

variable (T : Translation A A') {G : Grammar K W}

omit [DecidableEq W] [DecidableEq W'] in
theorem startRule_rule (goal : Category) :
    Parser.startRule A' (T.symbol goal) = T.rule (Parser.startRule A goal) := by
  rw [Parser.startRule, T.one]
  rfl

/-- A state that the chart begins with is entered in translation. -/
theorem seed_column (q : Production K W) (col : Column K W) :
    Parser.seed A' (T.production q) (T.column col) = T.column (Parser.seed A q col) := by
  unfold Parser.seed
  refine T.alter_column (fun c => ?_) (.predicted q.rule 0) col
  rw [show (T.production q).rule.weight = T.score q.rule.weight from T.weight_rule q.rule,
    T.addForward_cell, T.addInner_cell]
  exact T.offer_cell ⟨.seed, q.best, none, none, none⟩ _

omit [DecidableEq W] [DecidableEq W'] in
/-- A goal that can be empty begins the chart with the translated production, or with the same
error. Its probability must not be negative, because only such numbers are encoded alike. -/
theorem emptyStart_grammar (hA : G.algebra = A) {goal : Category}
    (hbest : 0 ≤ G.bestEmptyProbability goal) :
    Parser.emptyStart (T.grammar G) (T.symbol goal)
      = (Parser.emptyStart G goal).map T.production := by
  subst hA
  unfold Parser.emptyStart Rule.make
  dsimp only
  rw [T.emptyProbability_grammar, T.bestEmptyProbability_grammar,
    show (T.grammar G).algebra = A' from rfl, T.startRule_rule]
  split
  · rename_i hp
    rw [T.ofProbability hp.2.1.le, T.ofProbability hbest]
    rfl
  · rfl

/-- The first column begins with the translated states. -/
theorem seeds_grammar (hA : G.algebra = A) {goal : Category}
    (hbest : 0 ≤ G.bestEmptyProbability goal) :
    Parser.seeds (T.grammar G) (T.symbol goal) = (Parser.seeds G goal).map T.column := by
  subst hA
  have hstart : Parser.seed A' (.ofRule (Parser.startRule A' (T.symbol goal))) []
      = T.column (Parser.seed G.algebra (.ofRule (Parser.startRule G.algebra goal)) []) := by
    rw [T.startRule_rule, T.ofRule_rule]
    exact T.seed_column _ []
  unfold Parser.seeds
  dsimp only
  rw [T.isNullable_grammar, T.emptyStart_grammar rfl hbest,
    show (T.grammar G).algebra = A' from rfl, hstart]
  split
  · cases Parser.emptyStart G goal with
    | error e => rfl
    | ok q => exact congrArg Except.ok (T.seed_column q _)
  · rfl

/-- **A parser is created in translation, or refused with the same error.** -/
theorem create_grammar (hA : G.algebra = A) {goal : Category}
    (hbest : 0 ≤ G.bestEmptyProbability goal) :
    Parser.create (T.grammar G) (T.symbol goal) = (Parser.create G goal).map T.parser := by
  subst hA
  unfold Parser.create
  by_cases hgoal : goal = .start
  · rw [if_pos hgoal, if_pos ((T.symbol_eq_start_iff goal).mpr hgoal)]
    rfl
  · rw [if_neg hgoal, if_neg (mt (T.symbol_eq_start_iff goal).mp hgoal), T.seeds_grammar rfl hbest]
    cases Parser.seeds G goal with
    | error e => rfl
    | ok column =>
      show Except.ok (Parser.mk (T.grammar G) _
        ⟨[Parser.predict (T.grammar G) 0 (T.column column)]⟩ 0 _) = _
      rw [T.predict_column, show (T.grammar G).algebra = A' from rfl, T.one]
      rfl

/-- **One step in translation.** -/
theorem parser_step {p : Parser K W} (hp : p.grammar.algebra = A) (token : Payload) :
    (T.parser p).step token = (T.parser (p.step token).1, (p.step token).2) := by
  subst hp
  unfold Parser.step
  dsimp only [parser]
  rw [T.ensure_chart, T.column_chart, T.column_chart, T.scan_column]
  generalize hout : Parser.scan p.grammar (p.position + 1) token
    ((p.chart.ensure (p.position + 1)).column p.position)
    ((p.chart.ensure (p.position + 1)).column (p.position + 1)) = out
  obtain ⟨column, found⟩ := out
  cases found with
  | error e =>
    dsimp only [Except.map]
    rw [T.setColumn_chart]
  | ok scanned =>
    cases scanned with
    | nil => rfl
    | cons s scanned =>
      have hscores : ((s :: scanned).map T.state).map
            ((T.column column).forward (T.grammar p.grammar).algebra)
          = ((s :: scanned).map (column.forward p.grammar.algebra)).map T.score := by
        rw [List.map_map, List.map_map]
        exact List.map_congr_left fun t _ => T.forward_column column t
      have hcolumn : Parser.predict (T.grammar p.grammar) (p.position + 1)
            (Parser.complete (T.grammar p.grammar)
              ((T.chart (p.chart.ensure (p.position + 1))).columns.take (p.position + 1))
              (p.position + 1) (T.column column))
          = T.column (Parser.predict p.grammar (p.position + 1)
              (Parser.complete p.grammar
                ((p.chart.ensure (p.position + 1)).columns.take (p.position + 1))
                (p.position + 1) column)) := by
        rw [show (T.chart (p.chart.ensure (p.position + 1))).columns
          = (p.chart.ensure (p.position + 1)).columns.map T.column from rfl, ← List.map_take,
          T.complete_column, T.predict_column]
      simp only [Except.map, List.map_cons] at hscores ⊢
      rw [hscores, hcolumn, T.setColumn_chart, show (T.grammar p.grammar).algebra = A' from rfl,
        ← List.map_cons, T.sum_score]

/-- Any number of tokens in translation. -/
theorem parser_run {p : Parser K W} (hp : p.grammar.algebra = A) (tokens : List Payload) :
    (T.parser p).run tokens = (p.run tokens).map T.parser := by
  induction tokens generalizing p with
  | nil => rfl
  | cons token rest ih =>
    have halgebra := (congrArg Grammar.algebra (Parser.grammar_step p token)).trans hp
    rw [Parser.run, Parser.run, T.parser_step hp]
    generalize p.step token = out at halgebra
    obtain ⟨q, found⟩ := out
    rcases found with e | (_ | _)
    · rfl
    · rfl
    · exact ih halgebra

/-- Feeding ends before the same token. -/
theorem parser_feed {p : Parser K W} (hp : p.grammar.algebra = A) (tokens : List Payload) :
    (T.parser p).feed tokens = (p.feed tokens).map fun out => (T.parser out.1, out.2) := by
  induction tokens generalizing p with
  | nil => rfl
  | cons token rest ih =>
    have halgebra := (congrArg Grammar.algebra (Parser.grammar_step p token)).trans hp
    rw [Parser.feed, Parser.feed, T.parser_step hp]
    generalize p.step token = out at halgebra
    obtain ⟨q, found⟩ := out
    rcases found with e | (_ | _)
    · rfl
    · exact ih halgebra
    · dsimp only
      rw [ih halgebra]
      cases q.feed rest <;> rfl

/-- **The chart of a translated grammar is the translated chart.** -/
theorem parse_grammar (hA : G.algebra = A) {goal : Category}
    (hbest : 0 ≤ G.bestEmptyProbability goal) (tokens : List Payload) :
    parse (T.grammar G) (T.symbol goal) tokens = (parse G goal tokens).map T.chart := by
  unfold parse
  rw [T.create_grammar hA hbest]
  cases hcreate : Parser.create G goal with
  | error e => rfl
  | ok p =>
    obtain ⟨_, column, _, rfl⟩ := Parser.create_eq_ok hcreate
    dsimp only [Except.map, Except.mapError, bind, Except.bind]
    generalize hp : Parser.mk G goal ⟨[Parser.predict G 0 column]⟩ 0 G.algebra.one = p
    have halgebra : p.grammar.algebra = A := by
      rw [← hp]
      exact hA
    rw [T.parser_run halgebra]
    cases p.run tokens with
    | error e => rfl
    | ok q => exact congrArg Except.ok (T.ensure_chart q.chart tokens.length)

/-! ## What a parser tells -/

omit [DecidableEq W] [DecidableEq W'] in
/-- A parser accepts in translation what it accepted before. -/
theorem parser_isAccepted (p : Parser K W) : (T.parser p).isAccepted = p.isAccepted := by
  rw [Parser.isAccepted, Parser.isAccepted, parser, T.finalStates_chart, List.isEmpty_map]

omit [DecidableEq W] [DecidableEq W'] in
/-- Scores stand for the same probabilities, so that the prefix probability stays. -/
theorem parser_prefixProbability? {p : Parser K W} (hp : p.grammar.algebra = A) :
    (T.parser p).prefixProbability? = p.prefixProbability? := by
  subst hp
  exact T.toProbability p.prefixScore

/-- The sentence probability stays as well. -/
theorem parser_sentenceProbability? {p : Parser K W} (hp : p.grammar.algebra = A) :
    (T.parser p).sentenceProbability? = p.sentenceProbability? := by
  subst hp
  unfold Parser.sentenceProbability?
  dsimp only [parser]
  have hscores : (Parser.finalStates (T.chart p.chart) p.position).map
        ((T.chart p.chart).inner (T.grammar p.grammar).algebra)
      = ((Parser.finalStates p.chart p.position).map (p.chart.inner p.grammar.algebra)).map
          T.score := by
    rw [T.finalStates_chart, List.map_map, List.map_map]
    exact List.map_congr_left fun s _ => T.inner_chart p.chart s
  rw [hscores, show (T.grammar p.grammar).algebra = A' from rfl, T.sum_score, T.toProbability]

omit [DecidableEq W] [DecidableEq W'] in
/-- A symbol is new to a respelled list if and only if it was new to the list. -/
theorem addNew_map (known : List Category) (c : Category) :
    Parser.addNew (known.map T.symbol) (T.symbol c) = (Parser.addNew known c).map T.symbol := by
  rw [Parser.addNew, Parser.addNew, T.contains_map_symbol]
  split
  · rfl
  · rw [List.map_append]
    rfl

omit [DecidableEq W] [DecidableEq W'] in
/-- The terminals that may come next are respelled and keep their order. -/
theorem parser_allowedTerminals (p : Parser K W) :
    (T.parser p).allowedTerminals = p.allowedTerminals.map T.symbol := by
  unfold Parser.allowedTerminals
  dsimp only [parser]
  have hnext : ((T.chart p.chart).column p.position).filterMap (·.state.next?)
      = ((p.chart.column p.position).filterMap (·.state.next?)).map T.symbol := by
    rw [T.column_chart, column, List.filterMap_map, List.map_filterMap]
    exact List.filterMap_congr fun c _ => T.next?_state c.state
  rw [hnext, List.filter_map,
    show (T.grammar p.grammar).isTerminal ∘ T.symbol = p.grammar.isTerminal from
      funext T.isTerminal_grammar, List.foldl_map,
    show ([] : List Category) = [].map T.symbol from rfl]
  exact List.foldl_hom (List.map T.symbol) fun known c => T.addNew_map known c

end Parsers

/-! ## Trees -/

section Trees

variable (T : Translation A A') {G : Grammar K W} (hid : ∀ c, T.symbol c = c)
include hid

omit [DecidableEq W] [DecidableEq W'] in
theorem rhs_rule_of_id (r : Rule K W) : (T.rule r).rhs = r.rhs := by
  rw [T.rhs_rule, funext hid]
  exact List.map_id r.rhs

omit [DecidableEq W] [DecidableEq W'] in
/-- A category is derived from nothing by the same tree. -/
theorem toOption_emptyTree (fuel : Nat) (c : Category) :
    (Parser.emptyTree (T.grammar G) fuel c).toOption = (Parser.emptyTree G fuel c).toOption := by
  induction fuel generalizing c with
  | zero => rfl
  | succ fuel ih =>
    rw [Parser.emptyTree, Parser.emptyTree, T.bestEmptyRule?_grammar]
    cases G.bestEmptyRule? c with
    | none => rfl
    | some r =>
      dsimp only [Option.map_some]
      rw [toOption_bind, toOption_bind, toOption_mapM, toOption_mapM,
        T.rhs_rule_of_id hid, funext ih]
      rfl

omit [DecidableEq W] [DecidableEq W'] in
/-- The symbols that were left out come back at the same places, with the same trees. -/
theorem toOption_restore (omitted : List Int) (places : List (Category × Nat)) (found : List Tree) :
    (Parser.restore (T.grammar G) omitted places found).toOption
      = (Parser.restore G omitted places found).toOption := by
  induction places generalizing found with
  | nil => rfl
  | cons place places ih =>
    obtain ⟨c, i⟩ := place
    rw [Parser.restore.eq_def, Parser.restore.eq_def]
    dsimp only
    split
    · rw [toOption_bind, toOption_bind, T.toOption_emptyTree hid,
        show (T.grammar G).index.length = G.index.length from List.length_map _]
      refine congrArg _ (funext fun t => ?_)
      rw [toOption_bind, toOption_bind, ih]
      rfl
    · cases found with
      | nil => rfl
      | cons t found =>
        dsimp only
        rw [toOption_bind, toOption_bind, ih]
        rfl

omit [DecidableEq W] [DecidableEq W'] in
/-- The node over the trees that were found is the same. -/
theorem toOption_nodeOf (s : State K W) (found : List Tree) :
    (Parser.nodeOf (T.grammar G) (T.state s) found).toOption
      = (Parser.nodeOf G s found).toOption := by
  unfold Parser.nodeOf
  rw [T.isComplete_state, show (T.state s).rule = T.rule s.rule from rfl,
    T.source?_rule, T.lhs_rule, T.omitted_rule]
  cases s.isComplete <;> cases s.rule.source?
  case true.some source =>
    dsimp only [Option.map_some]
    rw [toOption_bind, toOption_bind, T.rhs_rule_of_id hid, T.toOption_restore hid]
    rfl
  all_goals rfl

/-- The trees that a state has found so far are the same. -/
theorem toOption_children (chart : Chart K W) (fuel : Nat) (s : State K W) :
    (Parser.children (T.grammar G) (T.chart chart) fuel (T.state s)).toOption
      = (Parser.children G chart fuel s).toOption := by
  induction fuel generalizing s with
  | zero => rfl
  | succ fuel ih =>
    rw [Parser.children.eq_def, Parser.children.eq_def]
    dsimp only
    rw [show (T.state s).dot = s.dot from rfl, T.best?_chart,
      show (T.state s).rule.rhs = s.rule.rhs from T.rhs_rule_of_id hid s.rule]
    split
    · rfl
    · rcases chart.best? s with _ | ⟨kind, score, _ | before, done, _ | token⟩
      · rfl
      · rfl
      · rfl
      · rcases done with _ | done
        · rfl
        · dsimp only [Option.map_some, pointer]
          rw [toOption_bind, toOption_bind, ih]
          refine congrArg _ (funext fun kids => ?_)
          rw [toOption_bind, toOption_bind, T.toOption_nodeOf hid]
          refine congrArg _ (funext fun last => ?_)
          rw [toOption_bind, toOption_bind, ih]
          rfl
      · dsimp only [Option.map_some, pointer]
        rw [toOption_bind, toOption_bind, ih]
        rfl

theorem toOption_bestTree (chart : Chart K W) (s : State K W) :
    (Parser.bestTree (T.grammar G) (T.chart chart) (T.state s)).toOption
      = (Parser.bestTree G chart s).toOption := by
  have hsize : (T.chart chart).size = chart.size := T.countStates_column chart.columns
  have hlhs : (T.state s).rule.lhs = s.rule.lhs := T.lhs_rule s.rule
  unfold Parser.bestTree
  rw [T.best?_chart, Option.isNone_map, hsize, hlhs, T.isComplete_state]
  by_cases hnone : (chart.best? s).isNone = true
  · rw [if_pos hnone, if_pos hnone]
    rfl
  · rw [if_neg hnone, if_neg hnone, toOption_bind, toOption_bind, T.toOption_children hid]
    refine congrArg _ (funext fun kids => ?_)
    rw [toOption_bind, toOption_bind, T.toOption_nodeOf hid]
    refine congrArg _ (funext fun tree => ?_)
    split
    · rcases tree with _ | ⟨c, _ | ⟨kid, _ | ⟨other, rest⟩⟩⟩ <;> rfl
    · rfl

/-- **Where symbols are not respelled, the best tree stays**, and its score is recoded. -/
theorem toOption_bestParse (chart : Chart K W) (k : Nat) :
    (Parser.bestParse (T.grammar G) (T.chart chart) k).toOption
      = (Parser.bestParse G chart k).toOption.map
          (Option.map fun best => (best.1, T.score best.2)) := by
  unfold Parser.bestParse
  rw [T.finalStates_chart]
  rcases Parser.finalStates chart k with _ | ⟨final, _ | ⟨other, rest⟩⟩
  · rfl
  · rw [List.map_cons, List.map_nil]
    dsimp only
    rw [toOption_bind, toOption_bind, T.toOption_bestTree hid, T.best?_chart]
    cases (Parser.bestTree G chart final).toOption with
    | none => rfl
    | some tree => cases chart.best? final <;> rfl
  · rfl

end Trees

end Translation
end StochasticGrammar
