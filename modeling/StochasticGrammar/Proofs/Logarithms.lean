import StochasticGrammar.Proofs.Safety

/-!
# Logarithms and probabilities give the same parse

A parser that keeps exact logarithms and one that keeps probabilities go through the same steps.
What the one has, the exponential makes what the other has: the same states in the same order, each
score the logarithm of the other one, the same best trees.

> `charts_agree`, `parsers_agree`: what the two charts and the two parsers have in common.
-/

namespace StochasticGrammar

/-! ## What two parsers have in common -/

/-- A score that is the logarithm of a number. -/
def IsLog (w : WithBot ℝ) (p : ℝ) : Prop :=
  0 ≤ p ∧ w = realLog p

theorem isLog_realExp (w : WithBot ℝ) : IsLog w (realExp w) :=
  ⟨realExp_nonneg w, (realLog_realExp w).symm⟩

/-- The same state with its rule scored by logarithms and by numbers. -/
def StatesAgree (s : State ℝ (WithBot ℝ)) (s' : State ℝ ℝ) : Prop :=
  s' = ofLogs.state s

/-- The same last step of a best derivation, scored by logarithms and by numbers. -/
structure PointersAgree (b : Backpointer ℝ (WithBot ℝ)) (b' : Backpointer ℝ ℝ) : Prop where
  kind : b.kind = b'.kind
  score : IsLog b.score b'.score
  previous : Option.Rel StatesAgree b.previous b'.previous
  completed : Option.Rel StatesAgree b.completed b'.completed
  token : b.token = b'.token

/-- The same state of a chart with its scores as logarithms and as numbers. -/
structure CellsAgree (c : Cell ℝ (WithBot ℝ)) (c' : Cell ℝ ℝ) : Prop where
  state : StatesAgree c.state c'.state
  forward : IsLog c.forward c'.forward
  inner : IsLog c.inner c'.inner
  best : Option.Rel PointersAgree c.best c'.best

/-- Charts with the same states in the same order. -/
def ChartsAgree (chart : Chart ℝ (WithBot ℝ)) (chart' : Chart ℝ ℝ) : Prop :=
  List.Forall₂ (List.Forall₂ CellsAgree) chart.columns chart'.columns

theorem rel_map {α β : Type} {r : α → β → Prop} {f : α → β} (h : ∀ a, r a (f a)) (o : Option α) :
    Option.Rel r o (o.map f) := by
  cases o with
  | none => exact .none
  | some a => exact .some (h a)

theorem statesAgree (s : State ℝ (WithBot ℝ)) : StatesAgree s (ofLogs.state s) :=
  rfl

theorem pointersAgree (b : Backpointer ℝ (WithBot ℝ)) : PointersAgree b (ofLogs.pointer b) :=
  ⟨rfl, isLog_realExp b.score, rel_map statesAgree _, rel_map statesAgree _, rfl⟩

theorem cellsAgree (c : Cell ℝ (WithBot ℝ)) : CellsAgree c (ofLogs.cell c) :=
  ⟨rfl, isLog_realExp c.forward, isLog_realExp c.inner, rel_map pointersAgree _⟩

/-- A chart agrees with its translation, state by state. -/
theorem chartsAgree (chart : Chart ℝ (WithBot ℝ)) : ChartsAgree chart (ofLogs.chart chart) := by
  refine List.forall₂_map_right_iff.mpr (List.forall₂_same.mpr fun col _ => ?_)
  exact List.forall₂_map_right_iff.mpr (List.forall₂_same.mpr fun c _ => cellsAgree c)

/-- Two computations that fail with the same error or give results that agree. -/
inductive OutcomesAgree {ε α β : Type} (agree : α → β → Prop) : Except ε α → Except ε β → Prop
  | error (e : ε) : OutcomesAgree agree (.error e) (.error e)
  | ok {a : α} {b : β} (h : agree a b) : OutcomesAgree agree (.ok a) (.ok b)

/-- The best parse can be read from two charts, and it is the same. -/
def BestAgree (G : Grammar ℝ (WithBot ℝ)) (G' : Grammar ℝ ℝ) (chart : Chart ℝ (WithBot ℝ))
    (chart' : Chart ℝ ℝ) (k : Nat) : Prop :=
  ∃ best best', Parser.bestParse G chart k = .ok best ∧ Parser.bestParse G' chart' k = .ok best' ∧
    Option.Rel (fun b b' => b.1 = b'.1 ∧ IsLog b.2 b'.2) best best'

/-- Two parsers that have taken the same tokens and tell the same about them. -/
structure ParsersAgree (q : Parser ℝ (WithBot ℝ) × List Payload) (q' : Parser ℝ ℝ × List Payload) :
    Prop where
  taken : q.2 = q'.2
  charts : ChartsAgree q.1.chart q'.1.chart
  accepted : q.1.isAccepted = q'.1.isAccepted
  prefixProbability : q.1.prefixProbability? = q'.1.prefixProbability?
  sentenceProbability : q.1.sentenceProbability? = q'.1.sentenceProbability?
  best : BestAgree q.1.grammar q'.1.grammar q.1.chart q'.1.chart q.1.position

/-- An outcome agrees with its translation, also if it is an error. -/
theorem OutcomesAgree.map {ε α β : Type} {agree : α → β → Prop} {f : α → β} {x : Except ε α}
    (h : ∀ a, x = .ok a → agree a (f a)) : OutcomesAgree agree x (x.map f) := by
  cases x with
  | error e => exact .error e
  | ok a => exact .ok (h a rfl)

variable {solver : Solver ℝ} {G : Grammar ℝ (WithBot ℝ)}

/-- The best parse that numbers lead to is the one that logarithms lead to. -/
theorem bestAgree {chart : Chart ℝ (WithBot ℝ)} {k : Nat}
    (h : Parser.HasParse (ofLogs.grammar G) (ofLogs.chart chart) k) :
    BestAgree G (ofLogs.grammar G) chart (ofLogs.chart chart) k := by
  obtain ⟨best', hbest', _⟩ := h.read
  have hread := ofLogs.toOption_bestParse (G := G) (fun _ => rfl) chart k
  rw [hbest'] at hread
  obtain ⟨best, hbest, hmap⟩ := Option.map_eq_some_iff.mp hread.symm
  refine ⟨best, best', toOption_eq_some.mp hbest, hbest', ?_⟩
  rw [← hmap]
  exact rel_map (fun b => ⟨rfl, isLog_realExp b.2⟩) best

section Agree

variable (hG : G.Compiled solver) (halgebra : G.algebra = logScores realLogScale)
  (hG' : (ofLogs.grammar G).Compiled solver) (goal : Category) (tokens : List Payload)
include hG halgebra hG'

/-- **The chart with logarithms agrees with the one with probabilities.** -/
theorem charts_agree :
    OutcomesAgree (fun chart chart' =>
        ChartsAgree chart chart' ∧ BestAgree G (ofLogs.grammar G) chart chart' tokens.length)
      (parse G goal tokens) (parse (ofLogs.grammar G) goal tokens) := by
  have hparse : parse (ofLogs.grammar G) goal tokens = (parse G goal tokens).map ofLogs.chart :=
    ofLogs.parse_grammar halgebra (hG.bestEmptyProbability_nonneg goal) tokens
  rw [hparse]
  refine .map fun chart hchart => ⟨chartsAgree chart, bestAgree ?_⟩
  rw [hchart] at hparse
  exact Parser.hasParse_of_parse hG' (Parser.neverRaises_of_isFalling hG' isFalling_linearScores)
    hparse

/-- **So do the parsers, whatever they are fed.** -/
theorem parsers_agree :
    OutcomesAgree (fun p p' => OutcomesAgree ParsersAgree (p.feed tokens) (p'.feed tokens))
      (Parser.create G goal) (Parser.create (ofLogs.grammar G) goal) := by
  have hcreate : Parser.create (ofLogs.grammar G) goal = (Parser.create G goal).map ofLogs.parser :=
    ofLogs.create_grammar halgebra (hG.bestEmptyProbability_nonneg goal)
  rw [hcreate]
  refine .map fun p hp => ?_
  have hgrammar : p.grammar = G := (Parser.holds_create hp).grammar
  have hfeed := ofLogs.parser_feed (hgrammar ▸ halgebra) tokens
  rw [hfeed]
  refine .map fun out hout => ?_
  obtain ⟨q, taken⟩ := out
  obtain ⟨fed, hfed, hagree⟩ := Parser.exists_fed_of_feed hp hout
  have hq : q.grammar = G := hagree.grammar.trans hfed.holds.grammar
  have hq' : q.grammar.algebra = logScores realLogScale := by rw [hq, halgebra]
  rw [hout] at hfeed
  rw [hp] at hcreate
  refine ⟨rfl, chartsAgree q.chart, (ofLogs.parser_isAccepted q).symm,
    (ofLogs.parser_prefixProbability? hq').symm, (ofLogs.parser_sentenceProbability? hq').symm, ?_⟩
  rw [hq, show (ofLogs.parser q).grammar = ofLogs.grammar q.grammar from rfl, hq]
  exact bestAgree (Parser.hasParse_of_feed hG'
    (Parser.neverRaises_of_isFalling hG' isFalling_linearScores) hcreate hfeed)

end Agree

/-- **Logarithms and probabilities give the same parse.** In exact arithmetic rules compile with the
one kind of scores if and only if they do with the other. Then for every category and all tokens the
charts hold the same states in the same order, each reached by the same best last step, and each
score is the logarithm of the other one. A parser accepts the same tokens and tells the same
probabilities and the same best tree. -/
theorem logarithms_and_probabilities_parse_alike (hsolver : solver.IsExact) (normalize : Bool)
    (rules : List (RuleHead × ℝ)) :
    ((∃ G, Builder.compile solver (logScores realLogScale) normalize rules = .ok G) ↔
      ∃ G', Builder.compile solver (linearScores ℝ) normalize rules = .ok G') ∧
    ∀ G G', Builder.compile solver (logScores realLogScale) normalize rules = .ok G →
      Builder.compile solver (linearScores ℝ) normalize rules = .ok G' →
      ∀ goal tokens,
        OutcomesAgree (fun chart chart' =>
            ChartsAgree chart chart' ∧ BestAgree G G' chart chart' tokens.length)
          (parse G goal tokens) (parse G' goal tokens) ∧
        OutcomesAgree (fun p p' => OutcomesAgree ParsersAgree (p.feed tokens) (p'.feed tokens))
          (Parser.create G goal) (Parser.create G' goal) := by
  have hcompile := toOption_compile_ofLogs hsolver normalize rules
  refine ⟨?_, fun G G' hG hG' goal tokens => ?_⟩
  · constructor
    · rintro ⟨G, hG⟩
      rw [hG] at hcompile
      exact ⟨_, toOption_eq_some.mp hcompile⟩
    · rintro ⟨G', hG'⟩
      rw [hG'] at hcompile
      obtain ⟨G, hG, _⟩ := Option.map_eq_some_iff.mp hcompile.symm
      exact ⟨G, toOption_eq_some.mp hG⟩
  · rw [hG, hG'] at hcompile
    obtain rfl : G' = ofLogs.grammar G := Option.some.inj hcompile
    obtain ⟨hcompiled, halgebra⟩ := (Grammar.built_of_compile hG).compiled
    have hcompiled' := (Grammar.built_of_compile hG').compiled.1
    exact ⟨charts_agree hcompiled halgebra hcompiled' goal tokens,
      parsers_agree hcompiled halgebra hcompiled' goal tokens⟩

/-- The grammar with a unit rule that leads back to its own category is built with both kinds of
scores, and both charts of a token agree. -/
theorem loop_charts_agree :
    ∃ G G' chart chart',
      Builder.compile realSolver (logScores realLogScale) false loopHeads = .ok G ∧
      Builder.compile realSolver (linearScores ℝ) false loopHeads = .ok G' ∧
      parse G (.name "S") [.text "a"] = .ok chart ∧ parse G' (.name "S") [.text "a"] = .ok chart' ∧
      ChartsAgree chart chart' ∧ BestAgree G G' chart chart' 1 := by
  obtain ⟨G', hloop, hrules⟩ := exists_loopGrammar
  obtain ⟨p, hfed, _⟩ := Parser.exists_fed_loopGrammar hloop hrules
  obtain ⟨p₀, hcreate, hfeed⟩ := hfed.exists_feed
  have hparse := Parser.parse_of_feed hcreate hfeed
  have hG' := compile_loopHeads.trans hloop
  obtain ⟨hiff, hagree⟩ :=
    logarithms_and_probabilities_parse_alike isExact_realSolver false loopHeads
  obtain ⟨G, hG⟩ := hiff.mpr ⟨G', hG'⟩
  have houtcomes := (hagree G G' hG hG' (.name "S") [.text "a"]).1
  rw [hparse] at houtcomes
  generalize hchart : parse G (.name "S") [.text "a"] = outcome at houtcomes
  cases houtcomes with
  | ok h => exact ⟨G, G', _, _, hG, hG', hchart, hparse, h⟩

end StochasticGrammar
