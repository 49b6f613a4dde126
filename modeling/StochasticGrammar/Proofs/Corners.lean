import StochasticGrammar.Proofs.Forward
import StochasticGrammar.Proofs.InnerMass

/-!
# Chains by their first and last edges

A table of summed chains solves an equation: a chain has no edge, or it is one edge with a chain
behind it, or a chain with one more edge. For unit chains the first edge is split off, for left
corners the last one. If the probabilities of every category sum up to one, so do those of the rules
that end the chains of left corners with a terminal: no probability gets lost on the way down.

> `unitScore_eq`, `leftCornerScore_eq`: the two equations, over the rules that the parser uses.

> `sum_first_terminal`: the left corners of a category end in terminals with probability one.
-/

namespace StochasticGrammar.Grammar

open scoped Classical

variable {W : Type} [DecidableEq W] {solver : Solver ℝ} {G : Grammar ℝ W} {value : W → ℝ}

/-! ## Tables -/

/-- Scores between names that sum up the chains of some weighted edges. -/
structure SumsChains (G : Grammar ℝ W) (edge score : Category → Category → ℝ) : Prop where
  nonneg : ∀ {x y}, x ∈ G.names → y ∈ G.names → 0 ≤ score x y
  first : ∀ {x y}, x ∈ G.names → y ∈ G.names → score x y
    = (if x = y then 1 else 0) + ∑ z ∈ G.names.toFinset, edge x z * score z y
  last : ∀ {x y}, x ∈ G.names → y ∈ G.names → score x y
    = (if x = y then 1 else 0) + ∑ z ∈ G.names.toFinset, score x z * edge z y

/-- **With exact linear algebra, a closure over the names sums up the chains of its edges.** -/
theorem Compiled.sumsChains (hG : G.Compiled solver) (hsolver : solver.IsExact)
    (hvalue : G.algebra.IsAdditive value) {edges : List (Category × Category × ℝ)}
    (hpos : ∀ e ∈ edges, 0 < e.2.2) {rows : Table Category (Table Category ℝ)}
    (h : Star.closure solver G.names edges = .ok rows) :
    SumsChains G
      (fun x y => (edges.map fun e => if e.1 = x ∧ e.2.1 = y then e.2.2 else 0).sum)
      (fun x y => value ((Table.get? ((Table.get? (encode G.algebra rows) x).getD []) y).getD
        G.algebra.zero)) := by
  by_cases hne : G.names = []
  · have hno : ∀ {x}, x ∉ G.names := fun {x} => hne ▸ List.not_mem_nil
    exact ⟨fun hx => absurd hx hno, fun hx => absurd hx hno, fun hx => absurd hx hno⟩
  · obtain ⟨places, hplaces, hradius, rfl⟩ := Star.closure_eq_ok hG.names.distinct hne h
    have hindex : ∀ {a b : Fin G.names.length}, G.names[a] = G.names[b] → a = b :=
      fun heq => hG.names.distinct.index_eq (by rw [heq]; exact BEq.rfl)
    have hedge : ∀ i j : Fin G.names.length, (edges.map fun e =>
        if e.1 = G.names[i] ∧ e.2.1 = G.names[j] then e.2.2 else 0).sum
          = (Star.weights places).entry i j :=
      fun i j => (Star.entry_weights hG.name_eq_of_beq hindex hplaces i j).symm
    have hnonneg := Star.weights_nonneg hpos hplaces
    have hinverse := Star.inverse_nonneg hsolver hnonneg hradius
    -- what is looked up by names is the entry at their places
    have hscore : ∀ i j : Fin G.names.length,
        value ((Table.get? ((Table.get? (encode G.algebra (Star.rows G.names
          (Reach.closure (Star.support (Star.weights places)))
          (solver.inverse (Star.complement (Star.weights places))).entry)) G.names[i]).getD [])
          G.names[j]).getD G.algebra.zero)
        = (solver.inverse (Star.complement (Star.weights places))).entry i j := by
      intro i j
      have hway := Star.entry_reach_iff_inverse_pos hsolver hnonneg hradius i j
      rw [encode_rows, Star.get?_entry _ _ hG.names.distinct]
      split
      · rename_i hpresent
        exact hvalue.ofProbability (hway.mp hpresent)
      · rename_i habsent
        rw [Option.getD_none, hvalue.zero]
        exact le_antisymm (hinverse i j) (not_lt.mp fun hpos => habsent (hway.mpr hpos))
    have hif : ∀ i j : Fin G.names.length,
        (if G.names[i] = G.names[j] then (1 : ℝ) else 0) = if i = j then 1 else 0 :=
      fun i j => if_congr ⟨hindex, congrArg fun k => G.names[k]⟩ rfl rfl
    refine ⟨fun hx hy => ?_, fun hx hy => ?_, fun hx hy => ?_⟩ <;>
      obtain ⟨i, rfl⟩ := exists_name hx <;> obtain ⟨j, rfl⟩ := exists_name hy
    · rw [hscore]
      exact hinverse i j
    · rw [hscore, hif, ← hG.sum_names, (Star.entry_inverse_eq hsolver hradius i j).1]
      simp only [hscore, hedge]
    · rw [hscore, hif, ← hG.sum_names, (Star.entry_inverse_eq hsolver hradius i j).2]
      simp only [hscore, hedge]

/-! ## Edges as rules -/

omit [DecidableEq W] in
/-- The edges between two names, summed over the rules that begin with the second one. -/
theorem sum_leftEdges {names : List Category} {rules : List (Rule ℝ W)} {x y : Category}
    (hy : expands names y = true) :
    ((leftEdges names rules).map fun e => if e.1 = x ∧ e.2.1 = y then e.2.2 else 0).sum
      = (rules.map fun r => if r.lhs = x ∧ r.rhs[0]? = some y then r.probability else 0).sum := by
  rw [leftEdges, sum_map_filterMap]
  congr 1
  refine List.map_congr_left fun r _ => ?_
  rcases hrhs : r.rhs with _ | ⟨z, rest⟩
  · simp
  · by_cases hz : expands names z = true
    · simp [hz]
    · have hne : z ≠ y := fun heq => hz (heq ▸ hy)
      simp [hz, hne]

theorem Compiled.sum_compiledRules {M : Type} [AddCommMonoid M] (hG : G.Compiled solver)
    (f : Rule ℝ W → M) : (G.compiledRules.map f).sum = ∑ r ∈ G.usedRules, f r :=
  (List.sum_toFinset f hG.nodup_compiledRules).symm

/-- The rules that the parser uses, sorted by what they expand. -/
theorem Compiled.sum_names_lhs (hG : G.Compiled solver) (f : Rule ℝ W → ℝ) :
    (∑ x ∈ G.names.toFinset, ∑ r ∈ G.usedRules, if r.lhs = x then f r else 0)
      = ∑ r ∈ G.usedRules, f r := by
  rw [Finset.sum_comm]
  refine Finset.sum_congr rfl fun r hr => ?_
  rw [Finset.sum_ite_eq, if_pos]
  exact List.mem_toFinset.mpr (hG.mem_names_of_uses (hG.mem_usedRules.mp hr))

section Equations

variable (hG : G.Compiled solver) (hsolver : solver.IsExact) (hvalue : G.algebra.IsAdditive value)
include hG hsolver hvalue

/-- **Unit chains by their first rule.** -/
theorem unitScore_eq {x y : Category} (hx : x ∈ G.names) (hy : y ∈ G.names) :
    value (G.unitScore x y) = (if x = y then 1 else 0) + ∑ r ∈ G.usedRules,
      if r.lhs = x ∧ G.isUnit r = true then
        r.probability * value (G.unitScore (r.rhs.headD .start) y) else 0 := by
  obtain ⟨rows, hrows, htable⟩ := hG.unitChains
  have hpos := unitEdges_pos G.names fun r (hr : r ∈ G.compiledRules) => hG.probability_pos hr
  have hfirst := (hG.sumsChains hsolver hvalue hpos hrows).first hx hy
  simp only [← htable] at hfirst
  refine hfirst.trans (congrArg _ ?_)
  -- an edge is the sum of the unit rules between its ends
  have hedge : ∀ z ∈ G.names.toFinset,
      ((unitEdges G.names G.compiledRules).map fun e =>
          if e.1 = x ∧ e.2.1 = z then e.2.2 else 0).sum * value (G.unitScore z y)
        = ∑ r ∈ G.usedRules, if r.lhs = x ∧ r.rhs = [z] then
            r.probability * value (G.unitScore z y) else 0 := by
    intro z hz
    have hz := hG.isNonterminal_iff.mpr (List.mem_toFinset.mp hz)
    rw [sum_unitEdges hz, hG.sum_compiledRules, Finset.sum_mul]
    refine Finset.sum_congr rfl fun r _ => ?_
    rw [ite_mul, zero_mul]
  refine (Finset.sum_congr rfl hedge).trans ?_
  rw [Finset.sum_comm]
  refine Finset.sum_congr rfl fun r _ => ?_
  by_cases hunit : G.isUnit r = true
  · obtain ⟨z, hrhs, hz⟩ := isUnit_iff.mp hunit
    simp only [hrhs, hunit, List.singleton_inj, and_true, List.headD_cons]
    rw [Finset.sum_eq_single z]
    · simp
    · intro z' _ hne
      rw [if_neg fun h => hne h.2.symm]
    · intro hout
      exact absurd (List.mem_toFinset.mpr (hG.isNonterminal_iff.mp hz)) hout
  · rw [if_neg fun h => hunit h.2]
    refine Finset.sum_eq_zero fun z hz => if_neg fun h => hunit ?_
    exact isUnit_iff.mpr ⟨z, h.2, hG.isNonterminal_iff.mpr (List.mem_toFinset.mp hz)⟩

/-- What is weighted by the unit chains to a name, by their first rules. -/
theorem sum_unitScore {y : Category} (hy : y ∈ G.names) (f : Category → ℝ) :
    ∑ x ∈ G.names.toFinset, value (G.unitScore x y) * f x = f y + ∑ r ∈ G.usedRules,
      if G.isUnit r = true then
        f r.lhs * r.probability * value (G.unitScore (r.rhs.headD .start) y) else 0 := by
  have hfirst : ∀ x ∈ G.names.toFinset, value (G.unitScore x y) * f x
      = (if x = y then f x else 0) + ∑ r ∈ G.usedRules, if r.lhs = x then
          (if G.isUnit r = true then
            f r.lhs * r.probability * value (G.unitScore (r.rhs.headD .start) y) else 0)
          else 0 := by
    intro x hx
    rw [unitScore_eq hG hsolver hvalue (List.mem_toFinset.mp hx) hy, add_mul, ite_mul, one_mul,
      zero_mul, Finset.sum_mul]
    refine congrArg _ (Finset.sum_congr rfl fun r _ => ?_)
    rw [ite_and]
    split_ifs with hlhs hunit
    · rw [← hlhs]
      ring
    · rw [zero_mul]
    · rw [zero_mul]
  rw [Finset.sum_congr rfl hfirst, Finset.sum_add_distrib, Finset.sum_ite_eq',
    if_pos (List.mem_toFinset.mpr hy), hG.sum_names_lhs]

/-- **Left corners by their last rule.** -/
theorem leftCornerScore_eq {z x : Category} (hz : z ∈ G.names) (hx : x ∈ G.names) :
    0 ≤ value (G.leftCornerScore z x) ∧
      value (G.leftCornerScore z x) = (if z = x then 1 else 0) + ∑ r ∈ G.usedRules,
        if r.rhs[0]? = some x then value (G.leftCornerScore z r.lhs) * r.probability else 0 := by
  obtain ⟨rows, hrows, htable⟩ := hG.leftCorners
  have hpos := leftEdges_pos G.names fun r (hr : r ∈ G.compiledRules) => hG.probability_pos hr
  have hsums := hG.sumsChains hsolver hvalue hpos hrows
  have hlast := hsums.last hz hx
  have hnonneg := hsums.nonneg hz hx
  simp only [← htable] at hlast hnonneg
  refine ⟨hnonneg, hlast.trans (congrArg _ ?_)⟩
  -- an edge is the sum of the rules of its source that begin with its target
  have hedge : ∀ y ∈ G.names.toFinset,
      value (G.leftCornerScore z y) * ((leftEdges G.names G.compiledRules).map fun e =>
          if e.1 = y ∧ e.2.1 = x then e.2.2 else 0).sum
        = ∑ r ∈ G.usedRules, if r.lhs = y then (if r.rhs[0]? = some x then
            value (G.leftCornerScore z r.lhs) * r.probability else 0) else 0 := by
    intro y _
    rw [sum_leftEdges (hG.isNonterminal_iff.mpr hx), hG.sum_compiledRules, Finset.mul_sum]
    refine Finset.sum_congr rfl fun r _ => ?_
    rw [mul_ite, mul_zero, ite_and]
    split
    · rename_i hlhs
      rw [hlhs]
    · rfl
  exact (Finset.sum_congr rfl hedge).trans (hG.sum_names_lhs _)

end Equations

/-! ## Proper grammars -/

/-- The probabilities of the rules of every category sum up to one. -/
def IsProper (G : Grammar ℝ W) : Prop :=
  ∀ x ∈ G.names, ((G.sourceRulesOf x).map Rule.probability).sum = 1

/-- No rule is empty. -/
def IsEpsilonFree (G : Grammar ℝ W) : Prop :=
  ∀ r ∈ G.rules, r.rhs ≠ []

theorem isEpsilonFree_of_loopRules {G : Grammar ℝ ℝ} (h : G.rules = loopRules) :
    G.IsEpsilonFree := by
  intro r hr
  rw [h] at hr
  exact (of_mem_loopRules hr).2.1

theorem isProper_of_loopRules {G : Grammar ℝ ℝ} (hG : G.Compiled solver) (h : G.rules = loopRules) :
    G.IsProper := by
  intro x hx
  obtain ⟨r, hr, rfl⟩ := hG.mem_names.mp hx
  rw [(of_mem_loopRules (h ▸ hr)).1, sourceRulesOf, hG.index, RuleIndex.rulesOf_ofRules, h]
  show ([1 / 4, 1 / 2, 1 / 4] : List ℝ).sum = 1
  norm_num

/-- Without empty rules nothing can be empty. -/
theorem IsEpsilonFree.isNullable_eq (hfree : G.IsEpsilonFree) (hG : G.Compiled solver)
    (x : Category) : G.isNullable x = false := by
  have hempty : ∀ d, Parser.IsEmptyBest G d → False := by
    intro d hd
    induction hd with
    | @node r ds hr hroots _ ih =>
      obtain ⟨⟨p, r⟩, hget, rfl⟩ := Option.map_eq_some_iff.mp hr
      cases ds with
      | nil => exact hfree r (hG.chosen.backed hget).mem hroots.symm
      | cons d ds => exact ih d List.mem_cons_self
  rw [Bool.eq_false_iff]
  intro hx
  obtain ⟨d, hd, _⟩ := Parser.exists_isEmptyBest hG hx
  exact hempty d hd

/-- Without empty rules the parser uses the rules as they are. -/
theorem IsEpsilonFree.uses_iff (hfree : G.IsEpsilonFree) (hG : G.Compiled solver) {r : Rule ℝ W} :
    G.Uses r ↔ r ∈ G.rules := by
  constructor
  · rintro ⟨x, q, hq, rfl⟩
    obtain ⟨_, r, hexp⟩ := hG.mem_productionsOf.mp hq
    cases hexp.expands with
    | whole => exact hexp.mem
    | @variant o ho =>
      obtain ⟨_, hlen, _⟩ := Omission.mem_omissions.mp ho
      obtain ⟨place, hplace⟩ := List.exists_mem_of_length_pos hlen
      have hnull := (Omission.getElem?_of_mem_omission ho hplace).2
      exact absurd hnull (Bool.eq_false_iff.mp (hfree.isNullable_eq hG place.1))
  · intro hr
    exact ⟨r.lhs, .ofRule r, hG.mem_productionsOf.mpr ⟨rfl, r, hr, hfree r hr, .whole⟩, rfl⟩

/-- In a proper grammar without empty rules, the probabilities that the parser uses for a category
sum up to one. -/
theorem IsProper.sum_usedRules (hproper : G.IsProper) (hfree : G.IsEpsilonFree)
    (hG : G.Compiled solver) {x : Category} (hx : x ∈ G.names) :
    (∑ r ∈ G.usedRules, if r.lhs = x then r.probability else 0) = 1 := by
  have hrules : G.rules.Nodup :=
    hG.distinct.imp fun {a b} hne heq => hne (by rw [heq]; exact BEq.rfl)
  have hsource : (G.sourceRulesOf x).Nodup := by
    rw [Grammar.sourceRulesOf, hG.index, RuleIndex.rulesOf_ofRules]
    exact hrules.filter _
  rw [← hproper x hx, ← List.sum_toFinset _ hsource, ← Finset.sum_filter]
  refine Finset.sum_congr ?_ fun _ _ => rfl
  ext r
  rw [Finset.mem_filter, List.mem_toFinset, hG.mem_usedRules, hfree.uses_iff hG, hG.sourceRulesOf]

/-- **Left corners end in terminals with probability one.** -/
theorem sum_first_terminal (hG : G.Compiled solver) (hsolver : solver.IsExact)
    (hvalue : G.algebra.IsAdditive value)
    (hsum : ∀ x ∈ G.names, (∑ r ∈ G.usedRules, if r.lhs = x then r.probability else 0) = 1)
    {z : Category} (hz : z ∈ G.names) :
    (∑ r ∈ G.usedRules, if (r.rhs[0]?).any G.isTerminal = true then
      value (G.leftCornerScore z r.lhs) * r.probability else 0) = 1 := by
  -- every rule begins with a terminal or with a name
  have hsplit : ∀ r ∈ G.usedRules, value (G.leftCornerScore z r.lhs) * r.probability
      = (if (r.rhs[0]?).any G.isTerminal = true then
          value (G.leftCornerScore z r.lhs) * r.probability else 0)
        + ∑ x ∈ G.names.toFinset, if r.rhs[0]? = some x then
          value (G.leftCornerScore z r.lhs) * r.probability else 0 := by
    intro r hr
    obtain ⟨x, q, hq, rfl⟩ := hG.mem_usedRules.mp hr
    obtain ⟨c, rest, hrhs⟩ := List.exists_cons_of_ne_nil (hG.isSound hq).rhs_ne
    have hstart : c ≠ .start := by
      rintro rfl
      exact (hG.isSound hq).start_not_mem (hrhs ▸ List.mem_cons_self)
    simp only [hrhs, List.getElem?_cons_zero, Option.any_some, Option.some.injEq,
      Finset.sum_ite_eq, List.mem_toFinset]
    by_cases hc : c ∈ G.names
    · rw [if_pos hc, if_neg (hG.not_isTerminal_of_mem hc), zero_add]
    · rw [if_neg hc, if_pos, add_zero]
      exact hG.isTerminal_of_not_mem hstart hc
  -- the chains by where they end, and by how they got there
  have hends : ∑ x ∈ G.names.toFinset, value (G.leftCornerScore z x)
      = ∑ r ∈ G.usedRules, value (G.leftCornerScore z r.lhs) * r.probability := by
    have hone : ∀ x ∈ G.names.toFinset, value (G.leftCornerScore z x)
        = ∑ r ∈ G.usedRules, if r.lhs = x then
            value (G.leftCornerScore z r.lhs) * r.probability else 0 := by
      intro x hx
      rw [← mul_one (value _), ← hsum x (List.mem_toFinset.mp hx), Finset.mul_sum]
      refine Finset.sum_congr rfl fun r _ => ?_
      rw [mul_ite, mul_zero]
      split
      · rename_i hlhs
        rw [hlhs]
      · rfl
    rw [Finset.sum_congr rfl hone, hG.sum_names_lhs]
  have hgrown : ∑ x ∈ G.names.toFinset, value (G.leftCornerScore z x)
      = 1 + ∑ r ∈ G.usedRules, ∑ x ∈ G.names.toFinset, if r.rhs[0]? = some x then
          value (G.leftCornerScore z r.lhs) * r.probability else 0 := by
    rw [Finset.sum_congr rfl fun x hx =>
      (leftCornerScore_eq hG hsolver hvalue hz (List.mem_toFinset.mp hx)).2,
      Finset.sum_add_distrib, Finset.sum_ite_eq, if_pos (List.mem_toFinset.mpr hz), Finset.sum_comm]
  -- what begins with a name stands on both sides, and cancels
  rw [Finset.sum_congr rfl hsplit, Finset.sum_add_distrib, hgrown] at hends
  exact (add_right_cancel hends).symm

end StochasticGrammar.Grammar
