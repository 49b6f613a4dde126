import StochasticGrammar.Proofs.Masses
import StochasticGrammar.Proofs.Series

/-!
# Unit rules summed up

A derivation begins with some unit rules, one below the other, and goes on with a rule that is none.
How much those with a given number of unit rules weigh is a power of the matrix of unit rules, so
all of them together are its series of powers, which is what the table of unit chains holds.

> `massOf_eq_chains`: the mass of a category is that of the derivations that begin with no unit
> rule, summed over the chains of unit rules that lead to them.
-/

namespace StochasticGrammar.Grammar

open scoped ENNReal Classical

variable {W : Type}

/-- How many unit rules a derivation begins with. -/
def unitDepth (G : Grammar ℝ W) : Derivation ℝ W → Nat :=
  Derivation.fold (fun _ _ => 0) fun r depths =>
    match G.isUnit r, depths with
    | true, [depth] => depth + 1
    | _, _ => 0

/-- The mass of the derivations that begin with some number of unit rules. -/
noncomputable def massAt (G : Grammar ℝ W) (depth : Nat) (x : Category) (tokens : List Payload) :
    ℝ≥0∞ :=
  tsum fun d : Derivation ℝ W =>
    if d.root = x ∧ d.tokens = tokens ∧ G.unitDepth d = depth then G.mass d else 0

/-- The mass of the derivations that begin with no unit rule, summed over their rules. -/
noncomputable def plainMass (G : Grammar ℝ W) (x : Category) (tokens : List Payload) : ℝ≥0∞ :=
  tsum fun r : Rule ℝ W => if G.Uses r ∧ r.lhs = x ∧ G.isUnit r = false then
    ENNReal.ofReal r.probability * G.massAll r.rhs tokens else 0

/-- The mass of the rules that turn one category into another. -/
noncomputable def unitMass (G : Grammar ℝ W) (x y : Category) : ℝ≥0∞ :=
  tsum fun r : Rule ℝ W =>
    if G.Uses r ∧ r.lhs = x ∧ r.rhs = [y] then ENNReal.ofReal r.probability else 0

variable {G : Grammar ℝ W}

/-! ## Depths -/

theorem unitDepth_of_isUnit {r : Rule ℝ W} (h : G.isUnit r = true) (d : Derivation ℝ W) :
    G.unitDepth (.node r [d]) = G.unitDepth d + 1 := by
  unfold unitDepth
  rw [Derivation.fold, Derivation.foldAll_eq, List.map_singleton, h]

theorem unitDepth_of_not_isUnit {r : Rule ℝ W} (h : G.isUnit r = false)
    (ds : List (Derivation ℝ W)) : G.unitDepth (.node r ds) = 0 := by
  unfold unitDepth
  rw [Derivation.fold, h]

/-- Every derivation begins with some number of unit rules. -/
theorem massOf_eq_tsum (x : Category) (tokens : List Payload) :
    G.massOf x tokens = tsum fun depth => G.massAt depth x tokens := by
  unfold massOf massAt
  rw [ENNReal.tsum_comm]
  refine tsum_congr fun d => ?_
  rw [tsum_eq_single (G.unitDepth d)]
  · simp
  · intro depth hne
    rw [if_neg]
    rintro ⟨_, _, heq⟩
    exact hne heq.symm

variable [DecidableEq W] {solver : Solver ℝ}

omit [DecidableEq W] in
theorem isUnit_iff {r : Rule ℝ W} :
    G.isUnit r = true ↔ ∃ y, r.rhs = [y] ∧ G.isNonterminal y = true := by
  unfold isUnit
  split
  · next y hrhs => simp [hrhs]
  · next hrhs =>
    constructor
    · intro h
      cases h
    · rintro ⟨y, hy, _⟩
      exact absurd hy (hrhs y)

/-- A derivation that begins with no unit rule. -/
theorem massAt_zero (hG : G.Compiled solver) {x : Category} (hx : G.isNonterminal x = true)
    (tokens : List Payload) : G.massAt 0 x tokens = G.plainMass x tokens := by
  unfold massAt plainMass
  rw [tsum_nodes hG hx tokens fun d => G.unitDepth d = 0]
  refine tsum_congr fun r => ?_
  by_cases hr : G.Uses r ∧ r.lhs = x
  · cases hunit : G.isUnit r with
    | false =>
      rw [if_pos hr, if_pos ⟨hr.1, hr.2, rfl⟩]
      simp only [unitDepth_of_not_isUnit hunit, and_true]
      rfl
    | true =>
      obtain ⟨y, hrhs, _⟩ := isUnit_iff.mp hunit
      rw [if_pos hr, if_neg (by simp), ENNReal.tsum_eq_zero.mpr, mul_zero]
      intro ds
      rw [if_neg]
      rintro ⟨hroots, _, hdepth⟩
      rw [hrhs] at hroots
      obtain ⟨d, rfl, _⟩ := List.map_eq_singleton_iff.mp hroots
      rw [unitDepth_of_isUnit hunit] at hdepth
      cases hdepth
  · rw [if_neg hr, if_neg fun h => hr ⟨h.1, h.2.1⟩]

/-- The children of a rule that a derivation begins with, if it begins with one more unit rule. -/
theorem tsum_children_succ (hG : G.Compiled solver) (r : Rule ℝ W) (depth : Nat)
    (tokens : List Payload) :
    (tsum fun ds : List (Derivation ℝ W) => if ds.map Derivation.root = r.rhs ∧
        ds.flatMap Derivation.tokens = tokens ∧ G.unitDepth (.node r ds) = depth + 1 then
          (ds.map G.mass).prod else 0)
      = ∑ j : Fin G.names.length,
          if r.rhs = [G.names[j]] then G.massAt depth G.names[j] tokens else 0 := by
  have hname : ∀ j : Fin G.names.length, r.rhs = [G.names[j]] → G.isUnit r = true :=
    fun j hj => isUnit_iff.mpr ⟨_, hj, hG.isNonterminal_iff.mpr (name_mem G j)⟩
  cases hunit : G.isUnit r with
  | false =>
    rw [ENNReal.tsum_eq_zero.mpr, Finset.sum_eq_zero]
    · intro j _
      rw [if_neg]
      intro hj
      rw [hname j hj] at hunit
      cases hunit
    · intro ds
      rw [if_neg]
      rintro ⟨_, _, hdepth⟩
      rw [unitDepth_of_not_isUnit hunit] at hdepth
      cases hdepth
  | true =>
    obtain ⟨y, hrhs, hy⟩ := isUnit_iff.mp hunit
    obtain ⟨i, rfl⟩ := exists_name (hG.isNonterminal_iff.mp hy)
    rw [Finset.sum_eq_single i, if_pos hrhs]
    · unfold massAt
      -- the node has one child, of the category that the rule leads to
      have hinj : Function.Injective fun d : Derivation ℝ W => [d] := List.singleton_injective
      rw [← hinj.tsum_eq]
      · refine tsum_congr fun d => ?_
        simp [hrhs, unitDepth_of_isUnit hunit]
      · intro ds hds
        by_cases hroots : ds.map Derivation.root = r.rhs
        · rw [hrhs] at hroots
          obtain ⟨d, rfl, _⟩ := List.map_eq_singleton_iff.mp hroots
          exact ⟨d, rfl⟩
        · exact absurd (if_neg fun h => hroots h.1) hds
    · intro j _ hne
      rw [if_neg]
      intro hj
      rw [hrhs] at hj
      refine hne (hG.names.distinct.index_eq ?_)
      rw [List.singleton_inj.mp hj]
      exact BEq.rfl
    · intro hout
      exact absurd (Finset.mem_univ i) hout

/-- A derivation that begins with one more unit rule. -/
theorem massAt_succ (hG : G.Compiled solver) {x : Category} (hx : G.isNonterminal x = true)
    (depth : Nat) (tokens : List Payload) :
    G.massAt (depth + 1) x tokens
      = ∑ j : Fin G.names.length, G.unitMass x G.names[j] * G.massAt depth G.names[j] tokens := by
  have hnodes := tsum_nodes hG hx tokens fun d => G.unitDepth d = depth + 1
  rw [massAt, hnodes]
  simp only [tsum_children_succ hG, unitMass, ← ENNReal.tsum_mul_right]
  rw [← Summable.tsum_finsetSum fun _ _ => ENNReal.summable]
  refine tsum_congr fun r => ?_
  by_cases hr : G.Uses r ∧ r.lhs = x
  · rw [if_pos hr, Finset.mul_sum]
    refine Finset.sum_congr rfl fun j _ => ?_
    by_cases hj : r.rhs = [G.names[j]]
    · rw [if_pos hj, if_pos ⟨hr.1, hr.2, hj⟩]
    · rw [if_neg hj, if_neg fun h => hj h.2.2, mul_zero, zero_mul]
  · rw [if_neg hr, Finset.sum_eq_zero]
    intro j _
    rw [if_neg fun h => hr ⟨h.1, h.2.1⟩, zero_mul]

/-! ## The matrix of unit rules -/

omit [DecidableEq W] in
theorem ofReal_sum_map {α : Type} {f : α → ℝ} {l : List α} (h : ∀ a ∈ l, 0 ≤ f a) :
    ENNReal.ofReal (l.map f).sum = (l.map fun a => ENNReal.ofReal (f a)).sum := by
  induction l with
  | nil => simp
  | cons a l ih =>
    have hrest : 0 ≤ (l.map f).sum := by
      refine List.sum_nonneg fun w hw => ?_
      obtain ⟨b, hb, rfl⟩ := List.mem_map.mp hw
      exact h b (List.mem_cons_of_mem _ hb)
    rw [List.map_cons, List.sum_cons, ENNReal.ofReal_add (h a List.mem_cons_self) hrest,
      ih fun b hb => h b (List.mem_cons_of_mem _ hb), List.map_cons, List.sum_cons]

omit [DecidableEq W] in
/-- A sum over the members of a list that has none twice. -/
theorem tsum_mem {α : Type} {l : List α} (h : l.Nodup) (f : α → ℝ≥0∞) :
    (tsum fun a => if a ∈ l then f a else 0) = (l.map f).sum := by
  rw [← List.sum_toFinset f h, tsum_eq_sum (s := l.toFinset)]
  · exact Finset.sum_congr rfl fun a ha => if_pos (List.mem_toFinset.mp ha)
  · intro a ha
    exact if_neg fun hmem => ha (List.mem_toFinset.mpr hmem)

omit [DecidableEq W] in
/-- The edges between two names, summed over the unit rules. -/
theorem sum_unitEdges {names : List Category} {rules : List (Rule ℝ W)} {x y : Category}
    (hy : expands names y = true) :
    ((unitEdges names rules).map fun e => if e.1 = x ∧ e.2.1 = y then e.2.2 else 0).sum
      = (rules.map fun r => if r.lhs = x ∧ r.rhs = [y] then r.probability else 0).sum := by
  rw [unitEdges, sum_map_filterMap]
  congr 1
  refine List.map_congr_left fun r _ => ?_
  rcases hrhs : r.rhs with _ | ⟨z, _ | ⟨z', rest⟩⟩
  · simp
  · by_cases hz : expands names z = true
    · simp [hz]
    · have hne : z ≠ y := fun heq => hz (heq ▸ hy)
      simp [hz, hne]
  · simp

/-- **An entry of the matrix of unit rules** is the mass of the rules between two names. -/
theorem ofReal_entry_weights (hG : G.Compiled solver)
    {places : List (Fin G.names.length × Fin G.names.length × ℝ)}
    (hplaces : (unitEdges G.names G.compiledRules).mapM (Star.resolve G.names) = .ok places)
    (i j : Fin G.names.length) :
    0 ≤ (Star.weights places).entry i j ∧
      ENNReal.ofReal ((Star.weights places).entry i j) = G.unitMass G.names[i] G.names[j] := by
  have hdistinct : ∀ {a b : Fin G.names.length}, G.names[a] = G.names[b] → a = b :=
    fun h => hG.names.distinct.index_eq (by rw [h]; exact BEq.rfl)
  have hnonneg : ∀ r ∈ G.compiledRules,
      0 ≤ if r.lhs = G.names[i] ∧ r.rhs = [G.names[j]] then r.probability else 0 := by
    intro r hr
    split
    · exact (hG.probability_pos hr).le
    · exact le_refl _
  have hentry : (Star.weights places).entry i j = (G.compiledRules.map fun r =>
      if r.lhs = G.names[i] ∧ r.rhs = [G.names[j]] then r.probability else 0).sum :=
    (Star.entry_weights hG.name_eq_of_beq hdistinct hplaces i j).trans
      (sum_unitEdges (hG.isNonterminal_iff.mpr (name_mem G j)))
  rw [hentry]
  constructor
  · refine List.sum_nonneg fun w hw => ?_
    obtain ⟨r, hr, rfl⟩ := List.mem_map.mp hw
    exact hnonneg r hr
  · rw [ofReal_sum_map hnonneg, ← tsum_mem hG.nodup_compiledRules]
    refine tsum_congr fun r => ?_
    simp only [hG.mem_compiledRules_iff_uses]
    split_ifs <;> simp_all

/-! ## Chains of unit rules -/

section Chains

variable {places : List (Fin G.names.length × Fin G.names.length × ℝ)}

/-- The derivations with some number of unit rules at their beginning are counted by a power of the
matrix. -/
theorem massAt_eq_pow (hG : G.Compiled solver)
    (hplaces : (unitEdges G.names G.compiledRules).mapM (Star.resolve G.names) = .ok places)
    (depth : Nat) (i : Fin G.names.length) (tokens : List Payload) :
    G.massAt depth G.names[i] tokens = ∑ j : Fin G.names.length,
      ENNReal.ofReal (((Star.weights places).toMatrix ^ depth) i j) *
        G.plainMass G.names[j] tokens := by
  have hnonneg : ∀ i j, 0 ≤ (Star.weights places).toMatrix i j :=
    fun i j => (ofReal_entry_weights hG hplaces i j).1
  have hname : ∀ i : Fin G.names.length, G.isNonterminal G.names[i] = true :=
    fun i => hG.isNonterminal_iff.mpr (name_mem G i)
  induction depth generalizing i with
  | zero =>
    rw [massAt_zero hG (hname i), Finset.sum_eq_single i]
    · rw [pow_zero, Matrix.one_apply_eq, ENNReal.ofReal_one, one_mul]
    · intro j _ hne
      rw [pow_zero, Matrix.one_apply_ne hne.symm, ENNReal.ofReal_zero, zero_mul]
    · intro hout
      exact absurd (Finset.mem_univ i) hout
  | succ depth ih =>
    -- one more unit rule is one more factor on the left
    have hentry : ∀ j, ENNReal.ofReal (((Star.weights places).toMatrix ^ (depth + 1)) i j)
        = ∑ k, G.unitMass G.names[i] G.names[k] *
            ENNReal.ofReal (((Star.weights places).toMatrix ^ depth) k j) := by
      intro j
      rw [pow_succ', Matrix.mul_apply, ENNReal.ofReal_sum_of_nonneg fun k _ =>
        mul_nonneg (hnonneg i k) (pow_entry_nonneg hnonneg depth k j)]
      refine Finset.sum_congr rfl fun k _ => ?_
      rw [ENNReal.ofReal_mul (hnonneg i k), ← (ofReal_entry_weights hG hplaces i k).2]
      rfl
    rw [massAt_succ hG (hname i)]
    simp only [ih, hentry, Finset.mul_sum, Finset.sum_mul, mul_assoc]
    exact Finset.sum_comm

/-- The table of unit chains: an entry is there where a chain leads, and it is the mass of all
chains. -/
structure IsUnitTable (G : Grammar ℝ W) (present : Square G.names.length Bool)
    (value : Fin G.names.length → Fin G.names.length → ℝ) : Prop where
  table : G.unitChains = Star.rows G.names present fun i j => G.algebra.ofProbability (value i j)
  positive : ∀ i j, present.entry i j = true → 0 < value i j
  absent : ∀ i j, ¬ present.entry i j = true → value i j = 0
  massOf_eq : ∀ i tokens, G.massOf G.names[i] tokens
    = ∑ j : Fin G.names.length, ENNReal.ofReal (value i j) * G.plainMass G.names[j] tokens

/-- **With exact linear algebra, the table of unit chains sums them up.** -/
theorem exists_isUnitTable (hG : G.Compiled solver) (hsolver : solver.IsExact) :
    ∃ present value, IsUnitTable G present value := by
  obtain ⟨rows, hrows, htable⟩ := hG.unitChains
  by_cases hne : G.names = []
  · rw [Star.closure, if_pos (by rw [hne]; rfl)] at hrows
    cases hrows
    have hno : ∀ i : Fin G.names.length, False := fun i => absurd i.2 (by simp [hne])
    refine ⟨.ofFn fun _ _ => false, fun _ _ => 0, ?_, fun i => (hno i).elim, fun i => (hno i).elim,
      fun i => (hno i).elim⟩
    rw [htable]
    simp [encode, Star.rows, hne]
  · obtain ⟨places, hplaces, hradius, rfl⟩ := Star.closure_eq_ok hG.names.distinct hne hrows
    have hnonneg : ∀ i j, 0 ≤ (Star.weights places).toMatrix i j :=
      fun i j => (ofReal_entry_weights hG hplaces i j).1
    have hsum := Star.hasSum_inverse hsolver hradius
    have hpow := fun i j => pow_entry_nonneg hnonneg (i := i) (j := j)
    have hway := Star.entry_reach_iff_inverse_pos hsolver hnonneg hradius
    refine ⟨_, _, htable.trans (encode_rows _ _ _ _), fun i j => (hway i j).mp, fun i j hij => ?_,
      fun i tokens => ?_⟩
    · exact le_antisymm (not_lt.mp fun hpos => hij ((hway i j).mpr hpos))
        (Star.inverse_nonneg hsolver hnonneg hradius i j)
    · have hentry : ∀ j,
          ENNReal.ofReal ((solver.inverse (Star.complement (Star.weights places))).entry i j)
          = tsum fun k => ENNReal.ofReal (((Star.weights places).toMatrix ^ k) i j) := by
        intro j
        rw [← (hsum i j).tsum_eq, ENNReal.ofReal_tsum_of_nonneg (hpow i j) (hsum i j).summable]
      rw [massOf_eq_tsum]
      simp only [massAt_eq_pow hG hplaces, hentry, ← ENNReal.tsum_mul_right]
      exact Summable.tsum_finsetSum fun _ _ => ENNReal.summable

end Chains

/-! ## Unit sources -/

/-- The mass of the chains of unit rules from one category to another, as the table has it. -/
noncomputable def chainMass (G : Grammar ℝ W) (value : W → ℝ) (x y : Category) : ℝ≥0∞ :=
  ((G.unitSources y).map fun source =>
    if source.1 = x then ENNReal.ofReal (value source.2) else 0).sum

section Sources

variable {value : W → ℝ}

/-- Where a chain has some mass, unit rules lead. -/
theorem unitStep_of_chainMass_ne (hG : G.Compiled solver) {x y : Category}
    (h : G.chainMass value x y ≠ 0) : y ∈ G.names ∧ Relation.ReflTransGen G.UnitStep x y := by
  refine hG.mem_unitSources.mp ?_
  by_contra hno
  refine h (List.sum_eq_zero fun w hw => ?_)
  obtain ⟨source, hsource, rfl⟩ := List.mem_map.mp hw
  rw [if_neg]
  rintro rfl
  exact hno ⟨source.2, hsource⟩

theorem chainMass_eq (hG : G.Compiled solver) (hexact : G.algebra.IsExact value)
    {present : Square G.names.length Bool} {chain : Fin G.names.length → Fin G.names.length → ℝ}
    (htable : IsUnitTable G present chain) (i j : Fin G.names.length) :
    G.chainMass value G.names[i] G.names[j] = ENNReal.ofReal (chain i j) := by
  have hindex : ∀ k : Fin G.names.length, G.names[k] = G.names[i] ↔ k = i := fun k =>
    ⟨fun h => hG.names.distinct.index_eq (by rw [h]; exact BEq.rfl), congrArg fun k => G.names[k]⟩
  have hmem : i ∈ (List.finRange G.names.length).filter (fun k => present.entry k j)
      ↔ present.entry i j = true := by simp
  unfold chainMass
  rw [hG.unitSources_rows htable.table, List.map_map, ← tsum_mem ((List.nodup_finRange _).filter _),
    tsum_eq_single i]
  · by_cases hij : present.entry i j = true
    · rw [if_pos (hmem.mpr hij), Function.comp_apply, if_pos rfl,
        hexact.ofProbability (htable.positive i j hij)]
    · rw [if_neg fun h => hij (hmem.mp h), htable.absent i j hij, ENNReal.ofReal_zero]
  · intro k hne
    split
    · exact if_neg fun h => hne ((hindex k).mp h)
    · rfl

/-- **The mass of a category**, summed over the rules that are no unit rules and the chains that
lead to them. -/
theorem massOf_eq_chains (hG : G.Compiled solver) (hsolver : solver.IsExact)
    (hexact : G.algebra.IsExact value) {x : Category} (hx : G.isNonterminal x = true)
    (tokens : List Payload) :
    G.massOf x tokens = tsum fun r : Rule ℝ W => if G.Uses r ∧ G.isUnit r = false then
      G.chainMass value x r.lhs * (ENNReal.ofReal r.probability * G.massAll r.rhs tokens)
    else 0 := by
  obtain ⟨present, chain, htable⟩ := exists_isUnitTable hG hsolver
  obtain ⟨i, rfl⟩ := exists_name (hG.isNonterminal_iff.mp hx)
  rw [htable.massOf_eq]
  simp only [plainMass, ← ENNReal.tsum_mul_left]
  rw [← Summable.tsum_finsetSum fun _ _ => ENNReal.summable]
  refine tsum_congr fun r => ?_
  by_cases hr : G.Uses r ∧ G.isUnit r = false
  · rw [if_pos hr]
    obtain ⟨j, hj⟩ := exists_name (hG.mem_names_of_uses hr.1)
    rw [Finset.sum_eq_single j, if_pos ⟨hr.1, hj.symm, hr.2⟩, ← hj, chainMass_eq hG hexact htable]
    · intro k _ hne
      rw [if_neg, mul_zero]
      rintro ⟨_, hk, _⟩
      refine hne (hG.names.distinct.index_eq ?_)
      rw [← hk, hj]
      exact BEq.rfl
    · intro hout
      exact absurd (Finset.mem_univ j) hout
  · rw [if_neg hr, Finset.sum_eq_zero]
    intro j _
    rw [if_neg fun h => hr ⟨h.1, h.2.2⟩, mul_zero]

end Sources

end StochasticGrammar.Grammar
