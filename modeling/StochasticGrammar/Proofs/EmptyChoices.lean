import StochasticGrammar.Proofs.Exact

/-!
# What the best empty derivations are

The choices among any rules with probabilities up to one, in exact arithmetic, whether or not a
grammar can be compiled from them: cycles of rules may come back with certainty. A choice is first
computed from choices that may improve later, but when the rounds end every choice has the
probability of its rule times those of the choices below it, and choices never lead back. So
following them down ends, and what is found is a best derivation of nothing.

> `OptimalChoices`: what is chosen, against all derivations of nothing.

> `best_empty_derivations_are_optimal`: the rounds end with such choices.
-/

namespace StochasticGrammar

variable {K W : Type} [Field K] [LinearOrder K]

namespace Parser

variable {rules : List (Rule K W)} {best : Empty.Choices K W} {t : Tree} {d : Derivation K W}

omit [Field K] [LinearOrder K] in
theorem Unfolds.leaves_eq_nil (h : Unfolds best t d) : t.leaves = [] := by
  refine h.induction (motive := fun t _ => t.leaves = []) fun {c p r ts ds} _ _ hts => ?_
  rw [Tree.leaves, Derivation.leavesAll_eq, List.flatMap_eq_nil_iff]
  intro t ht
  obtain ⟨_, _, hleaves⟩ := exists_right_of_mem hts ht
  exact hleaves

/-- What follows the choices is a derivation of nothing. -/
theorem Unfolds.vanishes (hchosen : Empty.Chosen rules best) (h : Unfolds best t d) :
    d.Vanishes rules ∧ (d.root == t.category) = true := by
  refine h.induction (motive := fun t d => d.Vanishes rules ∧ (d.root == t.category) = true)
    fun {c p r ts ds} hc hcategories hts => ?_
  have hbacked := hchosen.backed hc
  refine ⟨.node hbacked.mem ?_ fun d hd => ?_, hbacked.lhs⟩
  · rw [← hcategories, List.forall₂_map_right_iff]
    exact (hts.imp fun t d hd => hd.2).flip
  · obtain ⟨_, _, hd, _⟩ := exists_left_of_mem hts hd
    exact hd

/-- It has the probability that its category was chosen for. -/
theorem Unfolds.weight_eq [IsStrictOrderedRing K] (hchosen : Empty.Chosen rules best)
    (hrules : ∀ r ∈ rules, 0 ≤ r.probability) (h : Unfolds best t d) :
    d.weight Rule.probability = Empty.bestAt best t.category := by
  refine h.induction
    (motive := fun t d => d.weight Rule.probability = Empty.bestAt best t.category)
    fun {c p r ts ds} hc hcategories hts => ?_
  have hweights : ds.map (Derivation.weight Rule.probability)
      = (ts.map Tree.category).map (Empty.bestAt best) :=
    map_eq_of_forall₂ (by rw [List.map_map, List.forall₂_map_left_iff]; exact hts)
  rw [Derivation.weight_node, hweights, hcategories]
  exact (hchosen.bestAt_of_choice hrules hc).symm

end Parser

namespace Empty

/-- The derivations of nothing from a category, by their probabilities. -/
def emptyWeights (rules : List (Rule K W)) (x : Category) : Set K :=
  { w | ∃ d : Derivation K W, d.Vanishes rules ∧ (d.root == x) = true ∧
    d.weight Rule.probability = w }

/-- What is chosen among some rules, against all derivations of nothing: `known` are the categories
that can be empty, `bound` is a depth that no tree exceeds. -/
structure OptimalChoices (rules : List (Rule K W)) (known : List Category) (best : Choices K W)
    (bound : Nat) : Prop where
  /-- The categories that can be empty are those that derive nothing. -/
  known_iff : ∀ x, known.contains x = true
    ↔ ∃ d : Derivation K W, d.Vanishes rules ∧ (d.root == x) = true
  /-- There is a choice for these and no others. -/
  isSome_iff : ∀ x, (Table.get? best x).isSome = known.contains x
  /-- Its probability is the greatest of a derivation of nothing. -/
  isGreatest : ∀ x, known.contains x = true → IsGreatest (emptyWeights rules x) (bestAt best x)
  /-- It is that of its rule times the final ones of the symbols of the rule. -/
  stored : ∀ {x p r}, Table.get? best x = some (p, r) → r ∈ rules ∧ (r.lhs == x) = true ∧
    p = bestAt best x ∧ p = r.probability * (r.rhs.map (bestAt best)).prod
  /-- Going down from a category to the symbols of its chosen rule comes to an end. -/
  wellFounded : WellFounded fun y x =>
    ∃ p r, Table.get? best x = some (p, r) ∧ r.rhs.contains y = true
  /-- So does building its tree, which has no leaves, and whose rules multiply to the choice. -/
  tree : ∀ x, known.contains x = true → ∃ tree d, tree.category = x ∧ tree.leaves = [] ∧
    Parser.Unfolds best tree d ∧ d.weight Rule.probability = bestAt best x ∧
    ∀ G : Grammar K W, G.choices = best → ∀ fuel, bound < fuel →
      Parser.emptyTree G fuel x = .ok tree

variable {rules : List (Rule K W)} {best : Choices K W}

/-- Choices lead down to symbols of a smaller depth, in whichever spelling. -/
theorem Chosen.wellFounded {names : List Category} (h : Chosen rules best)
    (hnames : ∀ r ∈ rules, names.any (· == r.lhs) = true) :
    WellFounded fun y x => ∃ p r, Table.get? best x = some (p, r) ∧ r.rhs.contains y = true := by
  refine Subrelation.wf (fun {y x} hyx => ?_)
    (measure fun x => depth (leads best) (names.map Category.form) x.form).wf
  obtain ⟨p, r, hget, hy⟩ := hyx
  obtain ⟨c, hc, hyc⟩ := List.contains_iff_exists_mem_beq.mp hy
  have hlt := h.depth_lt hnames hget hc
  rw [← Category.form_eq_iff.mpr hyc] at hlt
  exact hlt

/-- What the choices among some rules come to. -/
theorem Chosen.optimalChoices [IsStrictOrderedRing K] (h : Chosen rules best)
    (hrules : ∀ r ∈ rules, 0 ≤ r.probability) {names : List Category}
    (hnames : ∀ r ∈ rules, names.any (· == r.lhs) = true) :
    OptimalChoices rules (nullable (RuleIndex.ofRules rules)) best names.length where
  known_iff x := contains_nullable_iff
  isSome_iff x := by
    rw [Bool.eq_iff_iff, Option.isSome_iff_exists]
    constructor
    · intro hx
      obtain ⟨⟨p, r⟩, hget⟩ := hx
      obtain ⟨tree, d, rfl, hunfolds, _⟩ :=
        Parser.exists_emptyTree h hnames (chance_eq_some_iff.mpr ⟨r, hget⟩)
      exact contains_nullable_iff.mpr ⟨d, hunfolds.vanishes h⟩
    · intro hx
      obtain ⟨p, hp⟩ := h.exists_chance hx
      obtain ⟨r, hget⟩ := chance_eq_some_iff.mp hp
      exact ⟨(p, r), hget⟩
  isGreatest x hx := by
    obtain ⟨p, hp⟩ := h.exists_chance hx
    -- the tree of the choices attains what no derivation exceeds
    constructor
    · obtain ⟨tree, d, rfl, hunfolds, _⟩ := Parser.exists_emptyTree h hnames hp
      obtain ⟨hvanishes, hroot⟩ := hunfolds.vanishes h
      exact ⟨d, hvanishes, hroot, hunfolds.weight_eq h hrules⟩
    · intro w hw
      obtain ⟨d, hd, hroot, rfl⟩ := hw
      obtain ⟨v, hv, _, hle⟩ := h.weight_le hrules hd
      rw [bestAt_eq ((chance_congr best hroot).symm.trans hv)]
      exact hle
  stored {x p r} hget := by
    have hbacked := h.backed hget
    have hbest := bestAt_eq (chance_eq_some_iff.mpr ⟨r, hget⟩)
    exact ⟨hbacked.mem, hbacked.lhs, hbest.symm, hbest.symm.trans (h.bestAt_of_choice hrules hget)⟩
  wellFounded := h.wellFounded hnames
  tree x hx := by
    obtain ⟨p, hp⟩ := h.exists_chance hx
    obtain ⟨tree, d, rfl, hunfolds, htree⟩ := Parser.exists_emptyTree h hnames hp
    exact ⟨tree, d, rfl, hunfolds.leaves_eq_nil, hunfolds, hunfolds.weight_eq h hrules, htree⟩

/-- **The best empty derivations are optimal and well founded.** The rounds end after finitely many,
with choices that one more round leaves as they are; what is chosen then is best among all
derivations of nothing, and following it down ends, too. -/
theorem best_empty_derivations_are_optimal [IsStrictOrderedRing K] [DecidableEq W]
    (hrules : ∀ r ∈ rules, 0 < r.probability ∧ r.probability ≤ 1) :
    (∃ n, choices (RuleIndex.ofRules rules) = (choiceRound (RuleIndex.ofRules rules))^[n] []) ∧
      choiceRound (RuleIndex.ofRules rules) (choices (RuleIndex.ofRules rules))
        = choices (RuleIndex.ofRules rules) ∧
      OptimalChoices rules (nullable (RuleIndex.ofRules rules)) (choices (RuleIndex.ofRules rules))
        (RuleIndex.ofRules rules).length := by
  have hunit : ∀ r ∈ rules, Probability.InUnit r.probability :=
    fun r hr => ⟨(hrules r hr).1.le, (hrules r hr).2⟩
  have hoptimal := (chosen_choices hunit).optimalChoices (fun r hr => (hrules r hr).1.le)
    (RuleIndex.names_ofRules rules).covers
  rw [show (RuleIndex.ofRules rules).keys.length = (RuleIndex.ofRules rules).length from
    List.length_map _] at hoptimal
  exact ⟨⟨_, settle_eq_iterate _ _ _⟩, choiceRound_choices hunit, hoptimal⟩

/-- Two categories that lead to each other with certainty, and a way out of one of them. -/
def certainCycleRules : List (Rule ℚ ℚ) :=
  [.given ⟨⟨.plain, .name "A", [.name "B"]⟩, 1, 1, [], 0⟩,
    .given ⟨⟨.plain, .name "B", [.name "A"]⟩, 1, 1, [], 0⟩,
    .given ⟨⟨.plain, .name "B", []⟩, 1 / 2, 1 / 2, [], 0⟩]

/-- Going around the cycle is never better than leaving it. -/
theorem certainCycle_derivations_are_optimal :
    (nullable (RuleIndex.ofRules certainCycleRules)).contains (.name "A") = true ∧
      IsGreatest (emptyWeights certainCycleRules (.name "A")) (1 / 2) ∧
      OptimalChoices certainCycleRules (nullable (RuleIndex.ofRules certainCycleRules))
        (choices (RuleIndex.ofRules certainCycleRules)) 2 := by
  have hrules : ∀ r ∈ certainCycleRules, 0 < r.probability ∧ r.probability ≤ 1 := by
    decide +kernel
  have hknown : (nullable (RuleIndex.ofRules certainCycleRules)).contains (.name "A") = true := by
    decide +kernel
  have hbest : bestAt (choices (RuleIndex.ofRules certainCycleRules)) (.name "A") = 1 / 2 := by
    decide +kernel
  obtain ⟨_, _, hoptimal⟩ := best_empty_derivations_are_optimal hrules
  have hgreatest := hoptimal.isGreatest _ hknown
  rw [hbest] at hgreatest
  exact ⟨hknown, hgreatest, hoptimal⟩

end Empty
end StochasticGrammar
