import StochasticGrammar.Proofs.ExactLogarithms
import StochasticGrammar.Proofs.Faithful

/-!
# Reading a best parse never fails

A best parse is read along back pointers, and the reader has an error for each thing that could be
wrong with them: a state without a derivation, a broken chain, a symbol left out that cannot be
empty, a start node with several children, several final states. In the chart of a built grammar
nothing of that is ever met. The only reason for it that lies in the arithmetic is that multiplying
by the score of a rule does not raise a score, which rounding does not spoil:

> `isFalling_linearScores`, `isFalling_realLogScale`: plain probabilities have this, and so have
> exact logarithms.

> `neverRaises_of_isFalling`: then no grammar that is compiled with them raises a score.

> `Linked.hasParse`: a chart has a best parse at every position where it has a final state.
-/

namespace StochasticGrammar

variable {P W : Type} [Probability P]

/-! ## Scores that do not rise -/

/-- Scores of the numbers from zero to one: they are ordered, and a product of two is not better
than the second. -/
structure ScoreAlgebra.IsFalling (A : ScoreAlgebra P W) (good : W → Prop) : Prop where
  one : good A.one
  ofProbability : ∀ {p : P}, Probability.InUnit p → good (A.ofProbability p)
  mul : ∀ {a b}, good a → good b → good (A.mul a b)
  order : WeakOrder good fun a b => A.lt a b = true
  not_raised : ∀ {a b}, good a → good b → ¬ A.lt b (A.mul a b) = true

/-- Logarithms of the numbers from zero to one, which a sum does not raise. -/
structure LogScale.IsFalling (L : LogScale P W) (good : W → Prop) : Prop where
  unit : good L.unit
  bottom : good L.bottom
  log : ∀ {p : P}, 0 < p → p ≤ 1 → good (L.log p)
  plus : ∀ {a b}, good a → good b → good (L.plus a b)
  order : WeakOrder good fun a b => L.lt a b = true
  not_lt_bottom : ∀ {a}, good a → ¬ L.lt a L.bottom = true
  not_raised : ∀ {a b}, good a → good b → ¬ L.lt b (L.plus a b) = true

/-- Plain probabilities do not rise. -/
theorem isFalling_linearScores [BEq P] [UnitProducts P] :
    (linearScores P).IsFalling Probability.InUnit where
  one := UnitProducts.one_inUnit
  ofProbability h := h
  mul := UnitProducts.mul_inUnit
  order := {
    asymm := by
      intro p q hp hq hpq hqp
      exact UnitProducts.lt_asymm hp hq (of_decide_eq_true hpq) (of_decide_eq_true hqp)
    trans := by
      intro p q r hp hq hr hpq hqr hpr
      refine UnitProducts.not_lt_trans hp hq hr ?_ ?_ (of_decide_eq_true hpr)
      · exact fun h => hpq (decide_eq_true h)
      · exact fun h => hqr (decide_eq_true h) }
  not_raised := by
    intro p q hp hq h
    exact UnitProducts.not_right_lt_mul hp hq (of_decide_eq_true h)

/-- Exact logarithms of these numbers are those that are not above zero. -/
theorem isFalling_realLogScale : realLogScale.IsFalling (· ≤ 0) where
  unit := le_refl (0 : WithBot ℝ)
  bottom := bot_le
  log hpos hle := WithBot.coe_le_coe.mpr (Real.log_nonpos hpos.le hle)
  plus ha hb := add_nonpos ha hb
  order := {
    asymm := fun _ _ hab hba => lt_asymm (lt_iff.mp hab) (lt_iff.mp hba)
    trans := by
      intro a b c _ _ _ hab hbc hac
      have hba : b ≤ a := not_lt.mp (mt lt_iff.mpr hab)
      have hcb : c ≤ b := not_lt.mp (mt lt_iff.mpr hbc)
      exact absurd (lt_iff.mp hac) (not_lt.mpr (hcb.trans hba)) }
  not_lt_bottom _ h := absurd (lt_iff.mp h) not_lt_bot
  not_raised ha _ h := absurd (lt_iff.mp h) (not_lt.mpr (add_le_of_nonpos_left ha))

/-- Nor do logarithms, where the bottom absorbs the rest. -/
theorem LogScale.IsFalling.logScores {L : LogScale P W} {good : W → Prop} (h : L.IsFalling good) :
    (logScores L).IsFalling good where
  one := h.unit
  ofProbability := by
    intro p hp
    show good (if 0 < p then L.log p else L.bottom)
    split
    · next hpos => exact h.log hpos hp.2
    · exact h.bottom
  mul := by
    intro a b ha hb
    show good (if L.isBottom a || L.isBottom b then L.bottom else L.plus a b)
    split
    · exact h.bottom
    · exact h.plus ha hb
  order := h.order
  not_raised := by
    intro a b ha hb
    show ¬ L.lt b (if L.isBottom a || L.isBottom b then L.bottom else L.plus a b) = true
    split
    · exact h.not_lt_bottom hb
    · exact h.not_raised ha hb

namespace Parser

variable [DecidableEq P] [DecidableEq W] {solver : Solver P} {G : Grammar P W} {goal : Category}
  {tokens : List Payload} {good : W → Prop}

/-! ## No grammar raises such scores -/

section Falling

variable [UnitProducts P]

theorem bestEmptyProbability_inUnit (hG : G.Compiled solver) {x : Category}
    (hx : G.isNullable x = true) : Probability.InUnit (G.bestEmptyProbability x) := by
  obtain ⟨p, r, hget⟩ := hG.exists_choice hx
  have hchance : Empty.chance G.choices x = some p := by
    rw [Empty.chance, hget]
    rfl
  have hbest : G.bestEmptyProbability x = p := by
    show (Empty.chance G.choices x).getD 0 = p
    rw [hchance]
    rfl
  rw [hbest]
  exact hG.chosen.inUnit hchance

/-- The best score of a production stands for a number from zero to one. -/
theorem good_best (hG : G.Compiled solver) (hgood : G.algebra.IsFalling good) {x : Category}
    {q : Production P W} (hq : q ∈ G.productionsOf x) : good q.best := by
  obtain ⟨_, r, hexp⟩ := hG.mem_productionsOf.mp hq
  obtain ⟨head, p, hp, hr⟩ := hG.given r hexp.mem
  have hunit := UnitProducts.inUnit_of_isProper hp
  cases hexp.expands with
  | whole =>
    rw [hr]
    exact hgood.ofProbability hunit
  | @variant o ho =>
    refine hgood.ofProbability (UnitProducts.mul_inUnit ?_ (Probability.prod_inUnit ?_))
    · rw [hr]
      exact hunit
    · intro w hw
      obtain ⟨place, hplace, rfl⟩ := List.mem_map.mp hw
      exact bestEmptyProbability_inUnit hG (Omission.getElem?_of_mem_omission ho hplace).2

theorem good_of_attainable (hG : G.Compiled solver) (hgood : G.algebra.IsFalling good) {w : W}
    (h : Attainable G w) : good w := by
  induction h with
  | one => exact hgood.one
  | production hq => exact good_best hG hgood hq
  | empty hx => exact hgood.ofProbability (bestEmptyProbability_inUnit hG hx)
  | mul _ _ iha ihb => exact hgood.mul iha ihb

/-- **Scores that do not rise do not rise along the rules of a compiled grammar.** -/
theorem neverRaises_of_isFalling (hG : G.Compiled solver) (hgood : G.algebra.IsFalling good) :
    NeverRaises G := by
  refine ⟨⟨fun {a b} ha hb hab => ?_, fun {a b c} ha hb hc hab hbc => ?_⟩, fun {x q a} hq ha => ?_⟩
  · exact hgood.order.asymm (good_of_attainable hG hgood ha) (good_of_attainable hG hgood hb) hab
  · exact hgood.order.trans (good_of_attainable hG hgood ha) (good_of_attainable hG hgood hb)
      (good_of_attainable hG hgood hc) hab hbc
  · exact hgood.not_raised (good_best hG hgood hq) (good_of_attainable hG hgood ha)

/-! ## The parse of a final state -/

/-- The tree of a final state can be read, and the state has a score. -/
theorem Linked.exists_tree {columns : List (Column P W)} (hG : G.Compiled solver)
    (hlinked : Linked G goal tokens columns) (hsat : Saturated G goal tokens columns) {k : Nat}
    {s : State P W} (hs : s ∈ statesAt columns k) (hcomplete : s.isComplete = true)
    (hlhs : s.rule.lhs = .start) :
    ∃ tree b, bestTree G ⟨columns⟩ s = .ok tree ∧ Chart.best? ⟨columns⟩ s = some b := by
  obtain ⟨ds, hds⟩ := hlinked.exists_reads hG hsat hs
  have hfits := hsat.fits hs
  have hroots := (hds.isReading hG hsat).roots_of_isComplete hfits hcomplete
  obtain ⟨all, hall⟩ := hfits.rule.exists_restores hG hroots
  obtain ⟨d, _, _, _, htree⟩ := hds.tree_of_start hG hlinked hsat hcomplete hall hlhs
  obtain ⟨b, hb, _⟩ := hds.children_chart hG hlinked hsat
  exact ⟨d.toTree, b, htree, hb⟩

omit [UnitProducts P] in
/-- A complete state of the start symbol is a final one. -/
theorem Saturated.finalStates_eq_nil_iff {chart : Chart P W}
    (hsat : Saturated G goal tokens chart.columns) (n : Nat) :
    finalStates chart n = [] ↔
      ¬ ∃ s ∈ (chart.column n).states, s.isComplete = true ∧ s.rule.lhs = .start := by
  constructor
  · rintro hnil ⟨s, hs, hcomplete, hlhs⟩
    have hmem : s ∈ finalStates chart n :=
      mem_finalStates.mpr ⟨hs, hcomplete, hlhs, (hsat.fits hs).start_origin hlhs⟩
    rw [hnil] at hmem
    cases hmem
  · intro hnone
    refine List.eq_nil_iff_forall_not_mem.mpr fun s hs => hnone ?_
    obtain ⟨hmem, hcomplete, hlhs, _⟩ := mem_finalStates.mp hs
    exact ⟨s, hmem, hcomplete, hlhs⟩

/-- What a chart says about the best parse up to a position: there is at most one final state, and a
tree is read if and only if there is one. -/
structure HasParse (G : Grammar P W) (chart : Chart P W) (n : Nat) : Prop where
  unique : ∀ k, (finalStates chart k).length ≤ 1
  read : ∃ best, bestParse G chart n = .ok best ∧ (best = none ↔
    ¬ ∃ s ∈ (chart.column n).states, s.isComplete = true ∧ s.rule.lhs = .start)

/-- The best parse is that of the final state. -/
theorem Linked.exists_bestParse {chart : Chart P W} (hG : G.Compiled solver)
    (hlinked : Linked G goal tokens chart.columns) (hsat : Saturated G goal tokens chart.columns)
    {n : Nat} {s : State P W} (hs : finalStates chart n = [s]) :
    ∃ tree b, bestParse G chart n = .ok (some (tree, b.score)) ∧ chart.best? s = some b := by
  have hmem : s ∈ finalStates chart n := by
    rw [hs]
    exact List.mem_singleton_self s
  obtain ⟨hstate, hcomplete, hlhs, _⟩ := mem_finalStates.mp hmem
  obtain ⟨tree, b, htree, hb⟩ := hlinked.exists_tree hG hsat hstate hcomplete hlhs
  have htree : bestTree G chart s = .ok tree := htree
  have hb : chart.best? s = some b := hb
  refine ⟨tree, b, ?_, hb⟩
  unfold bestParse
  rw [hs]
  dsimp only
  rw [htree, hb]
  rfl

/-- **A best parse is read wherever there is a final state.** -/
theorem Linked.hasParse {chart : Chart P W} (hG : G.Compiled solver)
    (hlinked : Linked G goal tokens chart.columns) (hsat : Saturated G goal tokens chart.columns)
    (n : Nat) : HasParse G chart n := by
  refine ⟨fun k => ?_, ?_⟩
  · rcases hsat.finalStates_cases hG k with hnone | ⟨s, hs⟩
    · rw [hnone]
      exact Nat.zero_le 1
    · rw [hs]
      exact Nat.le_refl 1
  · rw [← hsat.finalStates_eq_nil_iff n]
    rcases hsat.finalStates_cases hG n with hnone | ⟨s, hs⟩
    · unfold bestParse
      rw [hnone]
      exact ⟨none, rfl, fun _ => rfl, fun _ => rfl⟩
    · obtain ⟨tree, b, hbest, _⟩ := hlinked.exists_bestParse hG hsat hs
      rw [hs]
      exact ⟨_, hbest, fun h => (by cases h), fun h => (by cases h)⟩

omit [Probability P] [UnitProducts P] in
/-- Where a complete state of the start symbol is, a tree is read. -/
theorem HasParse.exists_best {chart : Chart P W} {n : Nat} (h : HasParse G chart n)
    (hs : ∃ s ∈ (chart.column n).states, s.isComplete = true ∧ s.rule.lhs = .start) :
    ∃ best, bestParse G chart n = .ok (some best) := by
  obtain ⟨best, hbest, hnone⟩ := h.read
  cases best with
  | none => exact absurd hs (hnone.mp rfl)
  | some best => exact ⟨best, hbest⟩

omit [Probability P] [UnitProducts P] in
/-- What can be read of a chart can be read of every chart with the same columns. -/
theorem HasParse.congr {c d : Chart P W} {n : Nat} (h : HasParse G c n)
    (hcd : ∀ k, c.column k = d.column k) : HasParse G d n := by
  refine ⟨fun k => ?_, ?_⟩
  · rw [← finalStates_congr hcd k]
    exact h.unique k
  · rw [← bestParse_congr G hcd n, ← hcd n]
    exact h.read

end Falling

/-! ## Parsers and charts -/

section Read

variable [PositiveSums P] [UnitProducts P]

theorem hasParse_of_parse (hG : G.Compiled solver) (hnever : NeverRaises G) {chart : Chart P W}
    (hparse : parse G goal tokens = .ok chart) : HasParse G chart tokens.length := by
  have hcharted := parse_eq_ok hparse
  exact (hcharted.linked hG hnever).hasParse hG (hcharted.saturated hG) tokens.length

theorem hasParse_of_feed (hG : G.Compiled solver) (hnever : NeverRaises G)
    {offered taken : List Payload} {p q : Parser P W} (hcreate : create G goal = .ok p)
    (hfeed : p.feed offered = .ok (q, taken)) : HasParse G q.chart q.position := by
  -- refused tokens leave a parser that agrees with the one that was never offered them
  obtain ⟨q', hfed, hagree⟩ := exists_fed_of_feed hcreate hfeed
  have hrun := hfed.holds.run
  rw [hagree.position]
  exact ((hrun.linked hG hnever).hasParse hG (hrun.saturated hG) q'.position).congr fun k =>
    (hagree.column k).symm

end Read

/-- **Reading the best parse never fails.** In the chart of a list of tokens, and in that of a
parser that has been offered any tokens, taken or refused, at most one complete state of the start
symbol spans the input up to any position. The best parse up to the last position is none if and
only if there is no such state there, and a tree otherwise. -/
theorem best_parse_never_fails [PositiveSums P] [UnitProducts P] {A : ScoreAlgebra P W}
    (hA : A.IsFalling good) (hG : G.Built solver A) :
    (∀ tokens chart, parse G goal tokens = .ok chart → HasParse G chart tokens.length) ∧
    ∀ offered p q taken, create G goal = .ok p → p.feed offered = .ok (q, taken) →
      HasParse G q.chart q.position := by
  obtain ⟨hC, rfl⟩ := hG.compiled
  have hnever := neverRaises_of_isFalling hC hA
  exact ⟨fun _ _ hparse => hasParse_of_parse hC hnever hparse,
    fun _ _ _ _ hcreate hfeed => hasParse_of_feed hC hnever hcreate hfeed⟩

set_option maxRecDepth 100000 in
/-- In the small grammar, two tokens have a parse, through a rule variant, and a third one of
another kind, which is refused, does not take it away. In the grammar with a loop, compiled with
logarithms, a token has one. -/
theorem best_parses_are_read_for_both_kinds_of_scores :
    (∃ G p q taken best, smallGrammar = .ok G ∧ create G (.name "S") = .ok p ∧
      p.feed [.text "a", .text "a", .integer 0] = .ok (q, taken) ∧ taken.length = 2 ∧
      bestParse G q.chart q.position = .ok (some best)) ∧
    ∃ G p q best, Builder.compile realSolver (logScores realLogScale) false loopHeads = .ok G ∧
      create G (.name "S") = .ok p ∧ p.feed [.text "a"] = .ok (q, [.text "a"]) ∧
      bestParse G q.chart q.position = .ok (some best) := by
  constructor
  · have hcheck : (smallGrammar.toOption.any fun G => (create G (.name "S")).toOption.any fun p =>
        (p.feed [.text "a", .text "a", .integer 0]).toOption.any fun out =>
          decide (out.2.length = 2) && (out.1.chart.column out.1.position).states.any fun s =>
            s.isComplete && decide (s.rule.lhs = .start)) = true := by
      decide +kernel
    obtain ⟨G, hG, hcheck⟩ := any_toOption.mp hcheck
    obtain ⟨p, hp, hcheck⟩ := any_toOption.mp hcheck
    obtain ⟨⟨q, taken⟩, hfeed, hcheck⟩ := any_toOption.mp hcheck
    rw [Bool.and_eq_true, decide_eq_true_eq, List.any_eq_true] at hcheck
    obtain ⟨hlen, s, hs, hfinal⟩ := hcheck
    rw [Bool.and_eq_true, decide_eq_true_eq] at hfinal
    obtain ⟨best, hbest⟩ := ((best_parse_never_fails isFalling_linearScores
      (built_smallGrammar hG)).2 _ p q taken hp hfeed).exists_best ⟨s, hs, hfinal⟩
    exact ⟨G, p, q, taken, best, hG, hp, hfeed, hlen, hbest⟩
  · obtain ⟨G, p, q, hG, hp, hfeed, haccepted⟩ := exists_fed_loopLogs
    obtain ⟨s, hs, hcomplete, hlhs, _⟩ := isAccepted_iff.mp haccepted
    obtain ⟨best, hbest⟩ := ((best_parse_never_fails isFalling_realLogScale.logScores
      (Grammar.built_of_compile hG)).2 _ p q _ hp hfeed).exists_best ⟨s, hs, hcomplete, hlhs⟩
    exact ⟨G, p, q, best, hG, hp, hfeed, hbest⟩

end Parser
end StochasticGrammar
