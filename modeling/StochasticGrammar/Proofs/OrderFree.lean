import StochasticGrammar.Proofs.Logarithms
import StochasticGrammar.Proofs.Twins

/-!
# Rule order does not matter

A builder keeps repeated rules in the spelling that came first, so that rules in another order may
be kept in another spelling. A parser does not notice: both grammars are those of rules in canonical
spelling, put back into the spelling that was kept. There the order of rules settles nothing but the
order in which things are done.

> `rule_order_does_not_matter`: rules in another order build a grammar that parses alike, or none.
-/

namespace StochasticGrammar

open Grammar (Reordered)

/-! ## Canonical spelling -/

namespace Translation

variable {W : Type} {A : ScoreAlgebra ℝ W}

/-- Every symbol in its canonical spelling. -/
def respelling (A : ScoreAlgebra ℝ W) : Translation A A where
  symbol := Category.canonical
  score := id
  same c := (Category.beq_iff_canonical_eq _ _).mpr c.canonical_canonical
  injective := Function.injective_id
  zero := rfl
  one := rfl
  add _ _ := rfl
  mul _ _ := rfl
  lt _ _ := rfl
  ofProbability _ := rfl
  toProbability _ := rfl

/-- In canonical spelling, rules that say the same are spelled alike. -/
theorem head_respelling_eq {h h' : RuleHead} (hplain : ((respelling A).head h).IsPlain)
    (hsame : ((respelling A).head h == (respelling A).head h') = true) :
    (respelling A).head h = (respelling A).head h' := by
  have hcanonical := (RuleHead.beq_iff_canonical_eq _ _).mp hsame
  obtain ⟨hkind, hlhs, hrhs⟩ := RuleHead.mk.inj hcanonical
  have hlhs' : h.lhs = h'.lhs :=
    Category.eq_of_beq hplain.1 ((Category.beq_iff_canonical_eq _ _).mpr hlhs)
  have hidem : ∀ rhs : List Category,
      (rhs.map Category.canonical).map Category.canonical = rhs.map Category.canonical := by
    intro rhs
    rw [List.map_map]
    exact List.map_congr_left fun c _ => c.canonical_canonical
  have hrhs' : h.rhs.map Category.canonical = h'.rhs.map Category.canonical := by
    rw [← hidem h.rhs, ← hidem h'.rhs]
    exact hrhs
  exact (RuleHead.mk.injEq ..).mpr ⟨hkind, hlhs', hrhs'⟩

/-! ## Answers in translation -/

variable {W' : Type} {A' : ScoreAlgebra ℝ W'} [DecidableEq W] [DecidableEq W']
    (T : Translation A A')

/-- Columns have the same scores if their translations have. -/
theorem sameScores_of_column {col col' : Column ℝ W}
    (h : Column.SameScores A' (T.column col) (T.column col')) : Column.SameScores A col col' := by
  refine ⟨fun s => ?_, fun s => T.injective ?_, fun s => T.injective ?_, fun s => ?_⟩
  · rw [← T.contains_column, ← T.contains_column, h.contains]
  · rw [← T.forward_column, ← T.forward_column, h.forward]
  · rw [← T.inner_column, ← T.inner_column, h.inner]
  · have hbest := h.best (T.state s)
    rw [T.best?_column, T.best?_column, Option.map_map, Option.map_map] at hbest
    refine Option.map_injective T.injective ?_
    rw [Option.map_map, Option.map_map]
    exact hbest

/-- The best score is recoded. -/
theorem bestScore?_chart (chart : Chart ℝ W) (n : Nat) :
    Parser.bestScore? (T.chart chart) n = (Parser.bestScore? chart n).map T.score := by
  unfold Parser.bestScore?
  rw [T.finalStates_chart, List.head?_map]
  cases (Parser.finalStates chart n).head? with
  | none => rfl
  | some s =>
    show ((T.chart chart).best? (T.state s)).map _ = ((chart.best? s).map _).map T.score
    rw [T.best?_chart, Option.map_map, Option.map_map]
    rfl

/-- Parsers give the same answers if their translations do. -/
theorem sameAnswers_of_parsers {p p' : Parser ℝ W} (hp : p.grammar.algebra = A)
    (hp' : p'.grammar.algebra = A) (h : Parser.SameAnswers A' (T.parser p) (T.parser p')) :
    Parser.SameAnswers A p p' where
  position := h.position
  column k := T.sameScores_of_column (by
    rw [← T.column_chart, ← T.column_chart]
    exact h.column k)
  isAccepted := by
    rw [← T.parser_isAccepted p, ← T.parser_isAccepted p', h.isAccepted]
  allowedTerminals x := by
    have hterminals := h.allowedTerminals (T.symbol x)
    rwa [T.parser_allowedTerminals, T.parser_allowedTerminals, T.contains_map_symbol,
      T.contains_map_symbol] at hterminals
  prefixProbability := by
    rw [← T.parser_prefixProbability? hp, ← T.parser_prefixProbability? hp', h.prefixProbability]
  sentenceProbability := by
    rw [← T.parser_sentenceProbability? hp, ← T.parser_sentenceProbability? hp',
      h.sentenceProbability]

end Translation

variable {W : Type} [DecidableEq W] {A : ScoreAlgebra ℝ W} {value : W → ℝ} {solver : Solver ℝ}

open Translation (respelling)

/-- **Rules in another order build a grammar** whenever the rules do, and in canonical spelling both
have the same rules. -/
theorem exists_reordered (hsolver : solver.IsExact) (normalize : Bool)
    {rules rules' : List (RuleHead × ℝ)} (hperm : rules.Perm rules') {G : Grammar ℝ W}
    (hG : Builder.compile solver A normalize rules = .ok G) :
    ∃ G', Builder.compile solver A normalize rules' = .ok G' ∧
      Reordered solver ((respelling A).grammar G) ((respelling A).grammar G') := by
  have hspelled := (respelling A).toOption_compile hsolver normalize rules
  rw [hG] at hspelled
  obtain ⟨G₁, hG₁, hreordered⟩ := Grammar.exists_compile_of_perm hsolver normalize
    (hperm.map fun r => ((respelling A).head r.1, r.2)) (fun r hr r' hr' hplain hsame => by
      obtain ⟨r₀, _, rfl⟩ := List.mem_map.mp hr
      obtain ⟨r₀', _, rfl⟩ := List.mem_map.mp hr'
      exact Translation.head_respelling_eq hplain hsame) (toOption_eq_some.mp hspelled)
  have hspelled' := (respelling A).toOption_compile hsolver normalize rules'
  rw [hG₁] at hspelled'
  obtain ⟨G', hG', hgrammar⟩ := Option.map_eq_some_iff.mp hspelled'.symm
  exact ⟨G', toOption_eq_some.mp hG', hgrammar ▸ hreordered⟩

/-- The best parse can be read from two charts, with the same score. -/
def SameBest (G G' : Grammar ℝ W) (chart chart' : Chart ℝ W) (n : Nat) : Prop :=
  ∃ best best', Parser.bestParse G chart n = .ok best ∧ Parser.bestParse G' chart' n = .ok best' ∧
    best'.map (·.2) = best.map (·.2)

theorem sameBest_of_bestScore? {G G' : Grammar ℝ W} {chart chart' : Chart ℝ W} {n : Nat}
    (h : Parser.HasParse G chart n) (h' : Parser.HasParse G' chart' n)
    (hscore : Parser.bestScore? chart' n = Parser.bestScore? chart n) :
    SameBest G G' chart chart' n := by
  obtain ⟨best, hbest, _⟩ := h.read
  obtain ⟨best', hbest', _⟩ := h'.read
  refine ⟨best, best', hbest, hbest', ?_⟩
  rw [Parser.score_of_bestParse hbest, Parser.score_of_bestParse hbest', hscore]

section Alike

variable {G G' : Grammar ℝ W} (hG : G.Compiled solver) (hG' : G'.Compiled solver)
  (hA : G.algebra = A) (hA' : G'.algebra = A)
  (h : Reordered solver ((respelling A).grammar G) ((respelling A).grammar G'))
  (hsolver : solver.IsExact) (hvalue : A.IsAdditive value) (hinjective : Function.Injective value)
  (goal : Category) (tokens : List Payload)
include hG hG' hA hA' h hsolver hvalue hinjective

/-- The charts for the two orders, by way of canonical spelling, where equal symbols are one. -/
theorem charts_alike :
    SucceedAlike (fun chart chart' =>
        (∀ k, Column.SameScores A (chart.column k) (chart'.column k)) ∧
        SameBest G G' chart chart' tokens.length)
      (parse G goal tokens) (parse G' goal tokens) := by
  have hspelled :=
    Parser.parse_alike h rfl hsolver hvalue hinjective ((respelling A).symbol goal) tokens
  rw [(respelling A).parse_grammar hA (hG.bestEmptyProbability_nonneg goal),
    (respelling A).parse_grammar hA' (hG'.bestEmptyProbability_nonneg goal)] at hspelled
  have hnever := Parser.neverRaises_of_isExact hG (hA.symm ▸ hvalue.toIsExact)
  have hnever' := Parser.neverRaises_of_isExact hG' (hA'.symm ▸ hvalue.toIsExact)
  refine hspelled.of_map.imp fun chart chart' hparse hparse' hsame => ?_
  obtain ⟨hcolumns, hscore⟩ := hsame
  refine ⟨fun k => (respelling A).sameScores_of_column ?_,
    sameBest_of_bestScore? (Parser.hasParse_of_parse hG hnever hparse)
      (Parser.hasParse_of_parse hG' hnever' hparse') ?_⟩
  · rw [← Translation.column_chart, ← Translation.column_chart]
    exact hcolumns k
  · rw [Translation.bestScore?_chart, Translation.bestScore?_chart] at hscore
    exact Option.map_injective (respelling A).injective hscore

/-- The parsers for the two orders, whatever they are fed. -/
theorem parsers_alike :
    SucceedAlike (fun p p' => SucceedAlike (fun q q' => q'.2 = q.2 ∧ Parser.SameAnswers A q.1 q'.1 ∧
        SameBest G G' q.1.chart q'.1.chart q.1.position) (p.feed tokens) (p'.feed tokens))
      (Parser.create G goal) (Parser.create G' goal) := by
  have hspelled := Parser.create_alike h ((respelling A).symbol goal)
  rw [(respelling A).create_grammar hA (hG.bestEmptyProbability_nonneg goal),
    (respelling A).create_grammar hA' (hG'.bestEmptyProbability_nonneg goal)] at hspelled
  have hnever := Parser.neverRaises_of_isExact hG (hA.symm ▸ hvalue.toIsExact)
  have hnever' := Parser.neverRaises_of_isExact hG' (hA'.symm ▸ hvalue.toIsExact)
  refine hspelled.of_map.imp fun p p' hp hp' htwins => ?_
  have hfeed := htwins.feed h tokens
  rw [(respelling A).parser_feed (by rw [(Parser.holds_create hp).grammar, hA]),
    (respelling A).parser_feed (by rw [(Parser.holds_create hp').grammar, hA'])] at hfeed
  refine hfeed.of_map.imp fun q q' hq hq' hfed => ?_
  obtain ⟨htaken, taken, htwins⟩ := hfed
  have hanswers := htwins.sameAnswers h rfl hsolver hvalue hinjective
  have hscore := htwins.bestScore?_eq h rfl hsolver hvalue hinjective q.1.position
  obtain ⟨_, hfed, hagree⟩ := Parser.exists_fed_of_feed hp hq
  obtain ⟨_, hfed', hagree'⟩ := Parser.exists_fed_of_feed hp' hq'
  have hgrammar : q.1.grammar = G := hagree.grammar.trans hfed.holds.grammar
  have hgrammar' : q'.1.grammar = G' := hagree'.grammar.trans hfed'.holds.grammar
  have hparse := Parser.hasParse_of_feed hG hnever hp hq
  have hparse' := Parser.hasParse_of_feed hG' hnever' hp' hq'
  have hposition : q'.1.position = q.1.position := hanswers.position
  refine ⟨htaken, (respelling A).sameAnswers_of_parsers (by rw [hgrammar, hA])
    (by rw [hgrammar', hA']) hanswers, sameBest_of_bestScore? hparse (hposition ▸ hparse') ?_⟩
  change Parser.bestScore? ((respelling A).chart q'.1.chart) q.1.position
    = Parser.bestScore? ((respelling A).chart q.1.chart) q.1.position at hscore
  rw [Translation.bestScore?_chart, Translation.bestScore?_chart] at hscore
  exact Option.map_injective (respelling A).injective hscore

end Alike

/-- **Rule order does not matter.** In exact arithmetic, rules and the same rules in another order
are both refused by a builder, or both make a grammar. Then for every category and all tokens both
charts can be made or neither, and they hold the same states at every position, with the same
forward, inner and best scores. Parsers that are offered the same tokens take the same ones, accept
them alike, allow the same terminals next, and tell the same probabilities and the same score of the
best parse. -/
theorem rule_order_does_not_matter (hsolver : solver.IsExact) (hvalue : A.IsAdditive value)
    (hinjective : Function.Injective value) (normalize : Bool) {rules rules' : List (RuleHead × ℝ)}
    (hperm : rules.Perm rules') :
    SucceedAlike (fun G G' => ∀ goal tokens,
        SucceedAlike (fun chart chart' =>
            (∀ k, Column.SameScores A (chart.column k) (chart'.column k)) ∧
            SameBest G G' chart chart' tokens.length)
          (parse G goal tokens) (parse G' goal tokens) ∧
        SucceedAlike (fun p p' => SucceedAlike (fun q q' => q'.2 = q.2 ∧
              Parser.SameAnswers A q.1 q'.1 ∧ SameBest G G' q.1.chart q'.1.chart q.1.position)
            (p.feed tokens) (p'.feed tokens))
          (Parser.create G goal) (Parser.create G' goal))
      (Builder.compile solver A normalize rules) (Builder.compile solver A normalize rules') := by
  cases hG : Builder.compile solver A normalize rules with
  | error e =>
    cases hG' : Builder.compile solver A normalize rules' with
    | error e' => exact .error e e'
    | ok G' =>
      obtain ⟨G, hok, _⟩ := exists_reordered hsolver normalize hperm.symm hG'
      rw [hG] at hok
      cases hok
  | ok G =>
    obtain ⟨G', hG', hreordered⟩ := exists_reordered hsolver normalize hperm hG
    obtain ⟨hcompiled, hA⟩ := (Grammar.built_of_compile hG).compiled
    obtain ⟨hcompiled', hA'⟩ := (Grammar.built_of_compile hG').compiled
    rw [hG']
    exact .ok fun goal tokens =>
      ⟨charts_alike hcompiled hcompiled' hA hA' hreordered hsolver hvalue hinjective goal tokens,
        parsers_alike hcompiled hcompiled' hA hA' hreordered hsolver hvalue hinjective goal tokens⟩

omit [DecidableEq W] in
/-- Scores that can be recoded into probabilities add up. -/
theorem Translation.isAdditive (T : Translation A (linearScores ℝ)) : A.IsAdditive T.score where
  one := T.one.symm
  mul a b := (T.mul a b).symm
  lt a b := by
    rw [← T.lt]
    exact decide_eq_true_iff
  ofProbability hp := (T.ofProbability hp.le).symm
  zero := T.zero.symm
  add a b := (T.add a b).symm
  toProbability w := (T.toProbability w).symm

/-- The rules of the grammar with a unit rule that leads back to its own category may be given in
the other order, whether scores are probabilities or logarithms. -/
theorem loop_rules_in_either_order :
    (∃ G G' chart chart', Builder.compile realSolver (linearScores ℝ) false loopHeads = .ok G ∧
      Builder.compile realSolver (linearScores ℝ) false loopHeads.reverse = .ok G' ∧
      parse G (.name "S") [.text "a"] = .ok chart ∧ parse G' (.name "S") [.text "a"] = .ok chart' ∧
      (∀ k, Column.SameScores (linearScores ℝ) (chart.column k) (chart'.column k)) ∧
      SameBest G G' chart chart' 1) ∧
    ∃ G G' chart chart',
      Builder.compile realSolver (logScores realLogScale) false loopHeads = .ok G ∧
      Builder.compile realSolver (logScores realLogScale) false loopHeads.reverse = .ok G' ∧
      parse G (.name "S") [.text "a"] = .ok chart ∧ parse G' (.name "S") [.text "a"] = .ok chart' ∧
      (∀ k, Column.SameScores (logScores realLogScale) (chart.column k) (chart'.column k)) ∧
      SameBest G G' chart chart' 1 := by
  obtain ⟨G, hloop, hrules⟩ := exists_loopGrammar
  obtain ⟨p, hfed, _⟩ := Parser.exists_fed_loopGrammar hloop hrules
  obtain ⟨p₀, hcreate, hfeed⟩ := hfed.exists_feed
  have hparse := Parser.parse_of_feed hcreate hfeed
  have hG := compile_loopHeads.trans hloop
  have hcompile := toOption_compile_ofLogs isExact_realSolver false loopHeads
  rw [hG] at hcompile
  obtain ⟨L, hL, rfl⟩ := Option.map_eq_some_iff.mp hcompile.symm
  have hL := toOption_eq_some.mp hL
  obtain ⟨hcompiled, halgebra⟩ := (Grammar.built_of_compile hL).compiled
  have hlogs := ofLogs.parse_grammar halgebra (hcompiled.bestEmptyProbability_nonneg (.name "S"))
    [.text "a"]
  obtain ⟨chart, hchart⟩ : ∃ chart, parse L (.name "S") [.text "a"] = .ok chart := by
    cases hchart : parse L (.name "S") [.text "a"] with
    | error e =>
      rw [hchart] at hlogs
      exact absurd (hparse.symm.trans hlogs) (by rintro ⟨⟩)
    | ok chart => exact ⟨chart, rfl⟩
  refine ⟨?_, ?_⟩
  · obtain ⟨G', hG', hsame⟩ :=
      (rule_order_does_not_matter isExact_realSolver isAdditive_linearScores
        Function.injective_id false loopHeads.reverse_perm.symm).exists_of_ok hG
    obtain ⟨chart', hchart', hcolumns⟩ := (hsame (.name "S") [.text "a"]).1.exists_of_ok hparse
    exact ⟨_, G', _, chart', hG, hG', hparse, hchart', hcolumns⟩
  · obtain ⟨L', hL', hsame⟩ := (rule_order_does_not_matter isExact_realSolver ofLogs.isAdditive
      ofLogs.injective false loopHeads.reverse_perm.symm).exists_of_ok hL
    obtain ⟨chart', hchart', hcolumns⟩ := (hsame (.name "S") [.text "a"]).1.exists_of_ok hchart
    exact ⟨L, L', chart, chart', hL, hL', hchart, hchart', hcolumns⟩

end StochasticGrammar
