import StochasticGrammar.Proofs.Exact
import StochasticGrammar.Proofs.Reading

/-!
# Trees are faithful

Whatever state of a chart a tree is asked for, there is one, and it is what it claims to be: its
leaves are the tokens of the state's span, and its nodes follow the rules that the grammar was
given.
-/

namespace StochasticGrammar.Parser

variable {P W : Type} [DecidableEq P] [DecidableEq W] [Probability P] {solver : Solver P}
  {G : Grammar P W} {goal : Category} {tokens : List Payload} {columns : List (Column P W)}

/-- What is found of the start symbol is found of the category to be parsed. -/
theorem ChartRule.rhs_sourceOf (hG : G.Compiled solver) {r : Rule P W} (h : ChartRule G goal r)
    (hlhs : r.lhs = .start) : (sourceOf r).rhs = [goal] := by
  cases h with
  | start => rfl
  | empty _ hq =>
    rw [emptyStart_eq_ok hq]
    rfl
  | used hq => exact absurd hlhs (lhs_ne_start_of_used hG hq)

omit [DecidableEq P] [DecidableEq W] [Probability P] in
theorem nodeOf_of_not_isComplete {s : State P W} (h : s.isComplete = false) (found : List Tree) :
    nodeOf G s found = .ok (.node s.rule.lhs found) := by
  unfold nodeOf
  rw [h]

omit [Probability P] in
/-- The tree of a state is its node, unless that is the start node, which is dropped. -/
theorem bestTree_eq {chart : Chart P W} {s : State P W} {b : Backpointer P W} {kids : List Tree}
    {tree : Tree} (hbest : chart.best? s = some b)
    (hkids : children G chart (chart.size + 2) s = .ok kids) (hnode : nodeOf G s kids = .ok tree) :
    (¬ (s.rule.lhs = .start ∧ s.isComplete = true) → bestTree G chart s = .ok tree) ∧
      ∀ c t, tree = .node c [t] → s.rule.lhs = .start → s.isComplete = true →
        bestTree G chart s = .ok t := by
  unfold bestTree
  rw [hbest, hkids]
  simp only [Option.isNone_some, Bool.false_eq_true, if_false, bind, Except.bind, hnode, pure,
    Except.pure]
  refine ⟨fun h => if_neg h, fun c t htree hlhs hcomplete => ?_⟩
  rw [if_pos ⟨hlhs, hcomplete⟩, htree]

/-- The tree of every state. -/
structure IsTreeOf (G : Grammar P W) (goal : Category) (tokens : List Payload) (k : Nat)
    (s : State P W) (tree : Tree) : Prop where
  /-- Its leaves are the tokens of the span. -/
  tokens : tree.tokens = span tokens s.origin k
  /-- A state that is not complete has found some symbols of its rule. -/
  partial_root : s.isComplete = false → ∃ ds : List (Derivation P W),
    (∀ d ∈ ds, d.IsSourceParse G) ∧ ds.map Derivation.root = s.rule.rhs.take s.dot ∧
      tree = .node s.rule.lhs (ds.map Derivation.toTree)
  /-- A complete one has a parse by the given rules, of the category to be parsed if it is one of
  the start symbol. -/
  complete_root : s.isComplete = true → ∃ d : Derivation P W, d.IsSourceParse G ∧
    d.toTree = tree ∧ d.root = if s.rule.lhs = .start then goal else s.rule.lhs

/-! ## Trees of states -/

/-- A chart has depth enough to read any of its states. -/
theorem Reads.children_chart (hG : G.Compiled solver) (hlinked : Linked G goal tokens columns)
    (hsat : Saturated G goal tokens columns) {k : Nat} {s : State P W} {ds : List (Derivation P W)}
    (h : Reads G tokens columns k s ds) :
    ∃ b, Chart.best? ⟨columns⟩ s = some b ∧
      children G ⟨columns⟩ (Chart.size ⟨columns⟩ + 2) s = .ok (ds.map Derivation.toTree) := by
  obtain ⟨b, hb⟩ := hlinked.found hG hsat h.mem
  rw [← (hsat.fits h.mem).position] at hb
  have hle := backDepth_le columns s
  exact ⟨b, hb, h.children_eq hG hlinked hsat (Nat.lt_succ_of_le (Nat.le_succ_of_le hle))⟩

section Trees

variable {k : Nat} {s : State P W} {ds all : List (Derivation P W)}

theorem Reads.tree_of_not_isComplete (hG : G.Compiled solver)
    (hlinked : Linked G goal tokens columns) (hsat : Saturated G goal tokens columns)
    (h : Reads G tokens columns k s ds) (hcomplete : s.isComplete = false) :
    bestTree G ⟨columns⟩ s = .ok (.node s.rule.lhs (ds.map Derivation.toTree)) := by
  obtain ⟨b, hb, hkids⟩ := h.children_chart hG hlinked hsat
  refine (bestTree_eq hb hkids (nodeOf_of_not_isComplete hcomplete _)).1 ?_
  rintro ⟨_, hyes⟩
  rw [hcomplete] at hyes
  cases hyes

/-- The tree of a complete state of a category. -/
theorem Reads.tree_of_isComplete (hG : G.Compiled solver) (hlinked : Linked G goal tokens columns)
    (hsat : Saturated G goal tokens columns) (h : Reads G tokens columns k s ds)
    (hcomplete : s.isComplete = true) (hall : Restores G s.rule ds all)
    (hlhs : s.rule.lhs ≠ .start) :
    bestTree G ⟨columns⟩ s = .ok (Derivation.node (sourceOf s.rule) all).toTree := by
  obtain ⟨b, hb, hkids⟩ := h.children_chart hG hlinked hsat
  rw [Derivation.toTree_node, ((hsat.fits h.mem).rule.sourceOf_mem hG hlhs).2]
  exact (bestTree_eq hb hkids (nodeOf_eq hcomplete hall)).1 fun hstart => hlhs hstart.1

/-- The tree of a complete state of the start symbol. -/
theorem Reads.tree_of_start [UnitProducts P] (hG : G.Compiled solver)
    (hlinked : Linked G goal tokens columns) (hsat : Saturated G goal tokens columns)
    (h : Reads G tokens columns k s ds) (hcomplete : s.isComplete = true)
    (hall : Restores G s.rule ds all) (hlhs : s.rule.lhs = .start) :
    ∃ d, all = [d] ∧ d.root = goal ∧ d.IsSourceParse G ∧ bestTree G ⟨columns⟩ s = .ok d.toTree := by
  obtain ⟨b, hb, hkids⟩ := h.children_chart hG hlinked hsat
  have hfits := hsat.fits h.mem
  have hreading := h.isReading hG hsat
  have hroots := hall.roots_eq (hreading.roots_of_isComplete hfits hcomplete)
  rw [hfits.rule.rhs_sourceOf hG hlhs] at hroots
  obtain ⟨d, rfl, hroot⟩ := List.map_eq_singleton_iff.mp hroots
  refine ⟨d, rfl, hroot, ?_, ?_⟩
  · rcases hall.mem (List.mem_singleton_self d) with hempty | hd
    · exact hempty.isSourceParse hG
    · exact hreading.parses d hd
  · exact (bestTree_eq hb hkids (nodeOf_eq hcomplete hall)).2 _ _ rfl hlhs hcomplete

end Trees

/-- **Every state of a chart has a derivation, and its tree is faithful.** Multiplying by the score
of a rule must not raise a score; beyond that nothing is asked of the arithmetic. -/
theorem every_state_has_a_faithful_tree [PositiveSums P] [UnitProducts P] {A : ScoreAlgebra P W}
    (hG : G.Built solver A) (hnever : NeverRaises G) {chart : Chart P W}
    (hparse : parse G goal tokens = .ok chart) {k : Nat} {s : State P W}
    (hs : s ∈ (chart.column k).states) :
    (∃ b, chart.best? s = some b) ∧
      ∃ tree, bestTree G chart s = .ok tree ∧ IsTreeOf G goal tokens k s tree := by
  obtain ⟨hC, rfl⟩ := hG.compiled
  have hcharted := parse_eq_ok hparse
  have hsat := hcharted.saturated hC
  have hlinked := hcharted.linked hC hnever
  obtain ⟨ds, hds⟩ := hlinked.exists_reads hC hsat hs
  have hreading := hds.isReading hC hsat
  have hfits := hsat.fits hs
  obtain ⟨b, hb, _⟩ := hds.children_chart hC hlinked hsat
  refine ⟨⟨b, hb⟩, ?_⟩
  cases hcomplete : s.isComplete with
  | false =>
    refine ⟨_, hds.tree_of_not_isComplete hC hlinked hsat hcomplete, ?_,
      fun _ => ?_, fun hyes => ?_⟩
    · rw [Derivation.tokens_tree_node, List.flatMap_map, ← hreading.tokens]
      exact List.flatMap_congr fun d _ => d.tokens_toTree
    · exact ⟨ds, hreading.parses, hreading.roots, rfl⟩
    · rw [hcomplete] at hyes
      cases hyes
  | true =>
    obtain ⟨all, hall⟩ :=
      hfits.rule.exists_restores hC (hreading.roots_of_isComplete hfits hcomplete)
    have htokens := hall.tokens_eq.trans hreading.tokens
    by_cases hlhs : s.rule.lhs = .start
    · obtain ⟨d, rfl, hroot, hparse, htree⟩ := hds.tree_of_start hC hlinked hsat hcomplete hall hlhs
      rw [List.flatMap_singleton] at htokens
      refine ⟨_, htree, d.tokens_toTree.trans htokens, fun hno => ?_, fun _ => ⟨d, hparse, rfl, ?_⟩⟩
      · rw [hcomplete] at hno
        cases hno
      · rw [if_pos hlhs, hroot]
    · rw [← Derivation.tokens_node (sourceOf s.rule)] at htokens
      refine ⟨_, hds.tree_of_isComplete hC hlinked hsat hcomplete hall hlhs,
        (Derivation.tokens_toTree _).trans htokens, fun hno => ?_,
        fun _ => ⟨_, hreading.isSourceParse hC hfits hcomplete hlhs hall, rfl, ?_⟩⟩
      · rw [hcomplete] at hno
        cases hno
      · rw [if_neg hlhs, Derivation.root_node, (hfits.rule.sourceOf_mem hC hlhs).2]

set_option maxRecDepth 100000 in
/-- All states of a chart of the small grammar have faithful trees, those over the empty category
too. -/
theorem small_chart_has_faithful_trees :
    ∃ G chart, smallGrammar = .ok G ∧ parse G (.name "S") [.text "a", .text "a"] = .ok chart ∧
      (chart.column 2).states ≠ [] ∧
      ∀ k, ∀ s ∈ (chart.column k).states, ∃ tree, bestTree G chart s = .ok tree ∧
        IsTreeOf G (.name "S") [.text "a", .text "a"] k s tree := by
  obtain ⟨G, chart, hG, hchart, hcheck⟩ := exists_smallChart [.text "a", .text "a"]
    (fun _ chart => !(chart.column 2).states.isEmpty) (by decide +kernel)
  have hbuilt := built_smallGrammar hG
  obtain ⟨hC, hA⟩ := hbuilt.compiled
  have hnever : NeverRaises G := neverRaises_of_isExact hC (hA ▸ isExact_linearScores)
  refine ⟨G, chart, hG, hchart, by simpa using hcheck, fun k s hs => ?_⟩
  exact (every_state_has_a_faithful_tree hbuilt hnever hchart hs).2

end StochasticGrammar.Parser
