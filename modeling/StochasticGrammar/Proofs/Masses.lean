import Mathlib.Topology.Algebra.InfiniteSum.ENNReal
import StochasticGrammar.Proofs.Chains
import StochasticGrammar.Proofs.Derivation
import StochasticGrammar.Proofs.Exact

/-!
# Masses of derivations

How much all derivations of some tokens weigh together, by the rules that the parser uses. Unit
rules can make them infinitely many, so masses are extended numbers, which always add up; that they
are finite is a result about charts. None of the rules is empty, so a derivation takes its tokens
apart into shorter ones, unless it begins with a unit rule.

> `massAll_concat`: the mass of a string is summed over the ways to split the tokens between its
> last symbol and those before it.

> `tsum_nodes`: the mass of what begins with a name is summed over the rules that it begins with.
-/

namespace StochasticGrammar.Grammar

open scoped ENNReal Classical

variable {W : Type}

/-- The weight of a derivation; what is no derivation weighs nothing. -/
noncomputable def mass (G : Grammar ℝ W) (d : Derivation ℝ W) : ℝ≥0∞ :=
  if d.IsParse G G.Uses then ENNReal.ofReal (d.weight Rule.probability) else 0

/-- The mass of all derivations of some tokens from a category. -/
noncomputable def massOf (G : Grammar ℝ W) (x : Category) (tokens : List Payload) : ℝ≥0∞ :=
  tsum fun d : Derivation ℝ W => if d.root = x ∧ d.tokens = tokens then G.mass d else 0

/-- The mass of all derivations of some tokens from a string of symbols. -/
noncomputable def massAll (G : Grammar ℝ W) (symbols : List Category) (tokens : List Payload) :
    ℝ≥0∞ :=
  tsum fun ds : List (Derivation ℝ W) =>
    if ds.map Derivation.root = symbols ∧ ds.flatMap Derivation.tokens = tokens then
      (ds.map G.mass).prod
    else 0

variable [DecidableEq W] {solver : Solver ℝ} {G : Grammar ℝ W}

/-! ## Single derivations -/

theorem Compiled.probability_pos_of_uses (hG : G.Compiled solver) {r : Rule ℝ W} (hr : G.Uses r) :
    0 < r.probability := by
  obtain ⟨x, q, hq, rfl⟩ := hr
  exact (hG.isSound hq).proper.2.1

/-- No derivation by rules that the parser uses has a negative weight. -/
theorem weight_nonneg_of_uses (hG : G.Compiled solver) {d : Derivation ℝ W}
    (h : d.IsParse G G.Uses) : 0 ≤ d.weight Rule.probability := by
  induction h with
  | leaf => exact zero_le_one
  | @node r ds hr _ _ ih =>
    rw [Derivation.weight_node]
    refine mul_nonneg (hG.probability_pos_of_uses hr).le (List.prod_nonneg fun w hw => ?_)
    obtain ⟨d, hd, rfl⟩ := List.mem_map.mp hw
    exact ih d hd

omit [DecidableEq W] in
/-- A token has the mass one under a terminal that takes it. -/
theorem mass_leaf (c : Category) (t : Payload) :
    G.mass (.leaf c t) = if G.isTerminal c = true ∧ c.accepts t = .ok true then 1 else 0 := by
  have hparse : (Derivation.leaf c t : Derivation ℝ W).IsParse G G.Uses
      ↔ G.isTerminal c = true ∧ c.accepts t = .ok true :=
    ⟨fun h => (by cases h with | leaf hterm haccepts => exact ⟨hterm, haccepts⟩),
      fun h => .leaf h.1 h.2⟩
  unfold mass
  simp only [hparse, Derivation.weight_leaf, ENNReal.ofReal_one]

/-- The mass of several derivations is the product of their weights. -/
theorem prod_mass (hG : G.Compiled solver) {ds : List (Derivation ℝ W)}
    (h : ∀ d ∈ ds, d.IsParse G G.Uses) :
    (ds.map G.mass).prod = ENNReal.ofReal (ds.map (Derivation.weight Rule.probability)).prod := by
  induction ds with
  | nil => simp
  | cons d ds ih =>
    have hd := h d List.mem_cons_self
    rw [List.map_cons, List.prod_cons, List.map_cons, List.prod_cons,
      ENNReal.ofReal_mul (weight_nonneg_of_uses hG hd),
      ih fun e he => h e (List.mem_cons_of_mem _ he), mass, if_pos hd]

/-- The mass of a node is that of its rule times those of its children. -/
theorem mass_node (hG : G.Compiled solver) (r : Rule ℝ W) (ds : List (Derivation ℝ W)) :
    G.mass (.node r ds) = if G.Uses r ∧ ds.map Derivation.root = r.rhs then
      ENNReal.ofReal r.probability * (ds.map G.mass).prod else 0 := by
  by_cases hr : G.Uses r ∧ ds.map Derivation.root = r.rhs
  · rw [if_pos hr]
    by_cases hds : ∀ d ∈ ds, d.IsParse G G.Uses
    · rw [mass, if_pos (.node hr.1 hr.2 hds), prod_mass hG hds, Derivation.weight_node,
        ENNReal.ofReal_mul (hG.probability_pos_of_uses hr.1).le]
    · have hnode : ¬ (Derivation.node r ds).IsParse G G.Uses := by
        intro h
        cases h with
        | node _ _ h => exact hds h
      obtain ⟨d, hd, hno⟩ := not_forall₂.mp hds
      have hzero : (0 : ℝ≥0∞) ∈ ds.map G.mass :=
        List.mem_map.mpr ⟨d, hd, by rw [mass, if_neg hno]⟩
      rw [mass, if_neg hnode, List.prod_eq_zero hzero, mul_zero]
  · have hnode : ¬ (Derivation.node r ds).IsParse G G.Uses := by
      intro h
      cases h with
      | node h₁ h₂ _ => exact hr ⟨h₁, h₂⟩
    rw [if_neg hr, mass, if_neg hnode]

/-- Nothing is derived from nothing: rules that the parser uses are not empty. -/
theorem tokens_ne_of_uses (hG : G.Compiled solver) {d : Derivation ℝ W} (h : d.IsParse G G.Uses) :
    d.tokens ≠ [] := by
  induction h with
  | leaf => exact List.cons_ne_nil _ _
  | @node r ds hr hroots _ ih =>
    obtain ⟨x, q, hq, rfl⟩ := hr
    rw [Derivation.tokens_node]
    intro hnil
    cases ds with
    | nil => exact (hG.isSound hq).rhs_ne hroots.symm
    | cons d ds =>
      exact ih d List.mem_cons_self (List.flatMap_eq_nil_iff.mp hnil d List.mem_cons_self)

/-! ## Strings of symbols -/

omit [DecidableEq W] in
theorem massAll_nil (tokens : List Payload) :
    G.massAll [] tokens = if tokens = [] then 1 else 0 := by
  unfold massAll
  rw [tsum_eq_single []]
  · simp [eq_comm]
  · intro ds hds
    rw [if_neg]
    rintro ⟨hroots, _⟩
    exact hds (List.map_eq_nil_iff.mp hroots)

omit [DecidableEq W] in
/-- Derivations one behind the other have the tokens if and only if these split in one place. -/
theorem sum_splits (es : List (Derivation ℝ W)) (d : Derivation ℝ W) (symbols : List Category)
    (x : Category) (tokens : List Payload) :
    (if (es ++ [d]).map Derivation.root = symbols ++ [x] ∧
        (es ++ [d]).flatMap Derivation.tokens = tokens then ((es ++ [d]).map G.mass).prod else 0)
      = ∑ j ∈ Finset.range (tokens.length + 1),
          (if es.map Derivation.root = symbols ∧ es.flatMap Derivation.tokens = tokens.take j then
            (es.map G.mass).prod else 0) *
          (if d.root = x ∧ d.tokens = tokens.drop j then G.mass d else 0) := by
  by_cases h : (es ++ [d]).map Derivation.root = symbols ++ [x] ∧
      (es ++ [d]).flatMap Derivation.tokens = tokens
  · rw [if_pos h]
    obtain ⟨hroots, rfl⟩ := h
    rw [List.map_append, List.map_singleton] at hroots
    obtain ⟨hroots, hroot⟩ := List.append_inj' hroots rfl
    rw [List.flatMap_append, List.flatMap_singleton]
    -- the tokens are split where the last derivation begins, and nowhere else
    rw [Finset.sum_eq_single (es.flatMap Derivation.tokens).length]
    · rw [List.take_left, List.drop_left, if_pos ⟨hroots, rfl⟩,
        if_pos ⟨List.singleton_inj.mp hroot, rfl⟩, List.map_append, List.map_singleton,
        List.prod_append, List.prod_singleton]
    · intro j hj hne
      rw [if_neg, zero_mul]
      rintro ⟨_, htake⟩
      have hlen := congrArg List.length htake
      rw [List.length_take] at hlen
      have := Finset.mem_range.mp hj
      omega
    · intro hout
      refine absurd (Finset.mem_range.mpr ?_) hout
      rw [List.length_append]
      omega
  · rw [if_neg h, Finset.sum_eq_zero]
    intro j _
    by_cases hes : es.map Derivation.root = symbols ∧ es.flatMap Derivation.tokens = tokens.take j
    · have hd : ¬ (d.root = x ∧ d.tokens = tokens.drop j) := by
        rintro ⟨hroot, hdrop⟩
        refine h ⟨?_, ?_⟩
        · rw [List.map_append, List.map_singleton, hes.1, hroot]
        · rw [List.flatMap_append, List.flatMap_singleton, hes.2, hdrop, List.take_append_drop]
      rw [if_neg hd, mul_zero]
    · rw [if_neg hes, zero_mul]

omit [DecidableEq W] in
/-- **The mass of a string of symbols** is summed over the ways to split the tokens between its last
symbol and those before it. -/
theorem massAll_concat (symbols : List Category) (x : Category) (tokens : List Payload) :
    G.massAll (symbols ++ [x]) tokens
      = ∑ j ∈ Finset.range (tokens.length + 1),
          G.massAll symbols (tokens.take j) * G.massOf x (tokens.drop j) := by
  have hinj : Function.Injective
      fun p : List (Derivation ℝ W) × Derivation ℝ W => p.1 ++ [p.2] := by
    rintro ⟨es, d⟩ ⟨es', d'⟩ heq
    obtain ⟨hes, hd⟩ := List.append_inj' heq rfl
    exact Prod.ext hes (List.singleton_inj.mp hd)
  unfold massAll massOf
  rw [← hinj.tsum_eq]
  · simp only [sum_splits]
    rw [Summable.tsum_finsetSum fun _ _ => ENNReal.summable]
    refine Finset.sum_congr rfl fun j _ => ?_
    rw [ENNReal.tsum_prod']
    simp only [ENNReal.tsum_mul_left, ENNReal.tsum_mul_right]
  · -- what has the roots of the whole string has a last member
    intro ds hds
    rcases List.eq_nil_or_concat ds with rfl | ⟨es, d, rfl⟩
    · simp at hds
    · exact ⟨(es, d), (List.concat_eq_append).symm⟩

omit [DecidableEq W] in
/-- One symbol derives the tokens with its own mass. -/
theorem massAll_singleton (x : Category) (tokens : List Payload) :
    G.massAll [x] tokens = G.massOf x tokens := by
  have hconcat := G.massAll_concat [] x tokens
  rw [List.nil_append, Finset.sum_eq_single 0] at hconcat
  · rw [hconcat, List.take_zero, massAll_nil, if_pos rfl, one_mul, List.drop_zero]
  · intro j hj hne
    have hpos : (tokens.take j).length ≠ 0 := by
      have := Finset.mem_range.mp hj
      rw [List.length_take]
      omega
    rw [massAll_nil, if_neg (fun hnil => hpos (by rw [hnil]; rfl)), zero_mul]
  · intro hout
    exact absurd (Finset.mem_range.mpr (Nat.succ_pos _)) hout

/-! ## Categories -/

/-- The rules that the parser uses derive nothing from nothing. -/
theorem mass_eq_zero_of_tokens (hG : G.Compiled solver) {d : Derivation ℝ W} (h : d.tokens = []) :
    G.mass d = 0 := by
  rw [mass, if_neg]
  intro hparse
  exact tokens_ne_of_uses hG hparse h

theorem massOf_nil (hG : G.Compiled solver) (x : Category) : G.massOf x [] = 0 := by
  refine ENNReal.tsum_eq_zero.mpr fun d => ?_
  split
  · next h => exact mass_eq_zero_of_tokens hG h.2
  · rfl

/-- So a list of symbols has no mass on the empty phrase, unless it is empty. -/
theorem massAll_nil_tokens (hG : G.Compiled solver) {symbols : List Category} (h : symbols ≠ []) :
    G.massAll symbols [] = 0 := by
  rcases List.eq_nil_or_concat symbols with rfl | ⟨front, x, rfl⟩
  · exact absurd rfl h
  · rw [List.concat_eq_append, massAll_concat]
    refine Finset.sum_eq_zero fun j _ => ?_
    rw [List.drop_nil, massOf_nil hG, mul_zero]

/-- What is not expanded is the root of no node that has a mass. -/
theorem mass_node_of_not_mem (hG : G.Compiled solver) {r : Rule ℝ W} (hr : r.lhs ∉ G.names)
    (ds : List (Derivation ℝ W)) : G.mass (.node r ds) = 0 := by
  rw [mass_node hG, if_neg]
  rintro ⟨huses, _⟩
  exact hr (hG.mem_names_of_uses huses)

/-- The mass of a terminal: it takes one token or it does not. -/
theorem massOf_terminal (hG : G.Compiled solver) {x : Category} (hx : G.isTerminal x = true)
    (tokens : List Payload) :
    G.massOf x tokens = if ∃ t, tokens = [t] ∧ x.accepts t = .ok true then 1 else 0 := by
  have hnode : ∀ (r : Rule ℝ W) ds, r.lhs = x → G.mass (.node r ds) = 0 := by
    rintro r ds rfl
    exact mass_node_of_not_mem hG (fun hmem => hG.not_isTerminal_of_mem hmem hx) ds
  unfold massOf
  by_cases h : ∃ t, tokens = [t] ∧ x.accepts t = .ok true
  · rw [if_pos h]
    obtain ⟨t, rfl, haccepts⟩ := h
    rw [tsum_eq_single (.leaf x t), if_pos ⟨rfl, rfl⟩, mass_leaf, if_pos ⟨hx, haccepts⟩]
    intro d hd
    split
    · next hroot =>
      cases d with
      | leaf c u =>
        obtain ⟨rfl, htokens⟩ := hroot
        rw [List.singleton_inj.mp htokens] at hd
        exact absurd rfl hd
      | node r ds => exact hnode r ds hroot.1
    · rfl
  · rw [if_neg h, ENNReal.tsum_eq_zero]
    intro d
    split
    · next hroot =>
      cases d with
      | leaf c u =>
        obtain ⟨rfl, rfl⟩ := hroot
        rw [mass_leaf, if_neg]
        rintro ⟨_, haccepts⟩
        exact h ⟨u, rfl, haccepts⟩
      | node r ds => exact hnode r ds hroot.1
    · rfl

/-- The mass of the nodes that satisfy something, summed over their rules. -/
theorem tsum_roots (hG : G.Compiled solver) {x : Category} (hx : G.isNonterminal x = true)
    (p : Derivation ℝ W → Prop) [DecidablePred p] :
    (tsum fun d : Derivation ℝ W => if d.root = x ∧ p d then G.mass d else 0)
      = tsum fun r : Rule ℝ W => if G.Uses r ∧ r.lhs = x then ENNReal.ofReal r.probability *
          (tsum fun ds : List (Derivation ℝ W) => if ds.map Derivation.root = r.rhs ∧
            p (.node r ds) then (ds.map G.mass).prod else 0)
        else 0 := by
  have hinj : Function.Injective fun n : Rule ℝ W × List (Derivation ℝ W) =>
      Derivation.node n.1 n.2 := by
    rintro ⟨r, ds⟩ ⟨r', ds'⟩ heq
    cases heq
    rfl
  -- a leaf of a name has no mass, so that only nodes count
  rw [← hinj.tsum_eq]
  · rw [ENNReal.tsum_prod']
    refine tsum_congr fun r => ?_
    by_cases hr : G.Uses r ∧ r.lhs = x
    · rw [if_pos hr, ← ENNReal.tsum_mul_left]
      refine tsum_congr fun ds => ?_
      simp only [Derivation.root_node, mass_node hG, hr.1, hr.2, true_and]
      split_ifs <;> simp_all
    · rw [if_neg hr, ENNReal.tsum_eq_zero]
      intro ds
      rw [Derivation.root_node, mass_node hG]
      split_ifs <;> simp_all
  · intro d hd
    cases d with
    | leaf c t =>
      refine absurd ?_ hd
      dsimp only
      split
      · next h =>
        rw [← show c = x from h.1] at hx
        rw [mass_leaf, if_neg]
        rintro ⟨hterm, _⟩
        exact hG.not_isTerminal_of_mem (hG.isNonterminal_iff.mp hx) hterm
      · rfl
    | node r ds => exact ⟨(r, ds), rfl⟩

/-- The same of the nodes that derive some tokens. -/
theorem tsum_nodes (hG : G.Compiled solver) {x : Category} (hx : G.isNonterminal x = true)
    (tokens : List Payload) (p : Derivation ℝ W → Prop) [DecidablePred p] :
    (tsum fun d : Derivation ℝ W => if d.root = x ∧ d.tokens = tokens ∧ p d then G.mass d else 0)
      = tsum fun r : Rule ℝ W => if G.Uses r ∧ r.lhs = x then ENNReal.ofReal r.probability *
          (tsum fun ds : List (Derivation ℝ W) => if ds.map Derivation.root = r.rhs ∧
            ds.flatMap Derivation.tokens = tokens ∧ p (.node r ds) then (ds.map G.mass).prod else 0)
        else 0 := by
  rw [tsum_roots hG hx fun d => d.tokens = tokens ∧ p d]
  simp only [Derivation.tokens_node]

end StochasticGrammar.Grammar
