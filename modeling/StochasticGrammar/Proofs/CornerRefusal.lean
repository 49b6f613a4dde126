import StochasticGrammar.Proofs.ChainOrder
import StochasticGrammar.Proofs.CornerWeights

/-!
# Which left corners are refused

A builder refuses rules whose chains of left corners cannot be summed up, and it decides that by
what the edges count. That is never less than what the left corners have by the rules as they were
given, so that nothing slips through. It may be more, where symbols that can be empty stand behind a
corner, and then rules are refused whose own chains can be summed up.

> `spectralRadius_mono`: more weight has a greater spectral radius.

> `Collected.build_refused_iff`: rules are refused for their left corners if and only if what the
> edges count has a spectral radius of at least `1 - 1e-12`.

> `Collected.exists_build_of_converges`: nothing else is refused when chains are summed up.
-/

namespace StochasticGrammar

open Filter Topology
open scoped Classical ENNReal NNReal

/-! ## Spectral radii -/

section Radii

variable {n : Nat}

theorem pow_entry_mono {M N : Matrix (Fin n) (Fin n) ℝ} (hM : ∀ i j, 0 ≤ M i j)
    (hMN : ∀ i j, M i j ≤ N i j) (k : ℕ) (i j : Fin n) : (M ^ k) i j ≤ (N ^ k) i j := by
  induction k generalizing j with
  | zero => rw [pow_zero, pow_zero]
  | succ k ih =>
    rw [pow_succ, pow_succ, Matrix.mul_apply, Matrix.mul_apply]
    apply Finset.sum_le_sum
    intro l _
    exact mul_le_mul (ih l) (hMN l j) (hM l j) ((pow_entry_nonneg hM k i l).trans (ih l))

open scoped Matrix.Norms.Operator in
/-- Greater entries have a greater spectral radius. -/
theorem spectralRadius_mono {M N : Matrix (Fin n) (Fin n) ℝ} (hM : ∀ i j, 0 ≤ M i j)
    (hMN : ∀ i j, M i j ≤ N i j) :
    spectralRadius ℂ (M.map Complex.ofReal) ≤ spectralRadius ℂ (N.map Complex.ofReal) := by
  have hmap : ∀ (L : Matrix (Fin n) (Fin n) ℝ) (k : ℕ),
      L.map Complex.ofReal ^ k = (L ^ k).map Complex.ofReal :=
    fun L k => (map_pow Complex.ofRealHom.mapMatrix L k).symm
  have hnorm : ∀ k : ℕ, ‖M.map Complex.ofReal ^ k‖₊ ≤ ‖N.map Complex.ofReal ^ k‖₊ := by
    intro k
    rw [hmap, hmap, Matrix.linfty_opNNNorm_def, Matrix.linfty_opNNNorm_def]
    apply Finset.sup_mono_fun
    intro i _
    apply Finset.sum_le_sum
    intro j _
    have hnonneg := pow_entry_nonneg hM k i j
    have hle := pow_entry_mono hM hMN k i j
    rw [Matrix.map_apply, Matrix.map_apply, Complex.nnnorm_real, Complex.nnnorm_real,
      ← NNReal.coe_le_coe, coe_nnnorm, coe_nnnorm, Real.norm_of_nonneg hnonneg,
      Real.norm_of_nonneg (hnonneg.trans hle)]
    exact hle
  refine le_of_tendsto_of_tendsto'
    (spectrum.pow_nnnorm_pow_one_div_tendsto_nhds_spectralRadius (M.map Complex.ofReal))
    (spectrum.pow_nnnorm_pow_one_div_tendsto_nhds_spectralRadius (N.map Complex.ofReal)) fun k => ?_
  exact ENNReal.rpow_le_rpow (ENNReal.coe_le_coe.mpr (hnorm k)) (by positivity)

/-- What leads back to itself bounds the spectral radius from below. -/
theorem ofReal_diag_le_spectralRadius {M : Matrix (Fin n) (Fin n) ℝ} (hM : ∀ i j, 0 ≤ M i j)
    (i : Fin n) : ENNReal.ofReal (M i i) ≤ spectralRadius ℂ (M.map Complex.ofReal) := by
  let D : Matrix (Fin n) (Fin n) ℝ := Matrix.diagonal fun j => M j j
  have hD : ∀ j l, 0 ≤ D j l ∧ D j l ≤ M j l := by
    intro j l
    by_cases hjl : j = l
    · have heq : D j l = M j l := hjl ▸ Matrix.diagonal_apply_eq (fun j => M j j) j
      exact ⟨heq ▸ hM j l, heq.le⟩
    · have hzero : D j l = 0 := Matrix.diagonal_apply_ne (fun j => M j j) hjl
      exact ⟨hzero.ge, hzero.trans_le (hM j l)⟩
  refine le_trans ?_ (spectralRadius_mono (fun j l => (hD j l).1) fun j l => (hD j l).2)
  have hmem : (M i i : ℂ) ∈ spectrum ℂ (D.map Complex.ofReal) := by
    rw [show D.map Complex.ofReal = Matrix.diagonal fun j => (M j j : ℂ) from
      Matrix.diagonal_map Complex.ofReal_zero, spectrum_diagonal]
    exact ⟨i, rfl⟩
  refine le_trans (le_of_eq ?_)
    (le_iSup₂ (f := fun (z : ℂ) (_ : z ∈ spectrum ℂ (D.map Complex.ofReal)) => (‖z‖₊ : ℝ≥0∞))
      (M i i : ℂ) hmem)
  rw [Complex.nnnorm_real, ← ENNReal.ofReal_coe_nnreal, coe_nnnorm, Real.norm_of_nonneg (hM i i)]

open scoped Matrix.Norms.Operator in
/-- The rows bound the spectral radius from above. -/
theorem spectralRadius_le_of_sum_le {M : Matrix (Fin n) (Fin n) ℝ}
    (hM : ∀ i j, 0 ≤ M i j) {c : ℝ} (hc : ∀ i, ∑ j, M i j ≤ c) :
    spectralRadius ℂ (M.map Complex.ofReal) ≤ ENNReal.ofReal c := by
  rcases n.eq_zero_or_pos with hn | hn
  · subst hn
    exact (spectrum.SpectralRadius.of_subsingleton _).trans_le zero_le
  have : Nonempty (Fin n) := ⟨⟨0, hn⟩⟩
  refine (spectrum.spectralRadius_le_nnnorm _).trans (ENNReal.coe_le_coe.mpr ?_)
  rw [Matrix.linfty_opNNNorm_def]
  apply Finset.sup_le
  intro i _
  refine le_trans (le_of_eq ?_) (Real.toNNReal_le_toNNReal (hc i))
  rw [Real.toNNReal_sum_of_nonneg fun j _ => hM i j]
  apply Finset.sum_congr rfl
  intro j _
  rw [Matrix.map_apply, Complex.nnnorm_real, Real.nnnorm_of_nonneg (hM i j),
    Real.toNNReal_of_nonneg (hM i j)]

end Radii

/-! ## When left corners diverge -/

namespace Grammar

variable {W : Type} [DecidableEq W] {solver : Solver ℝ} {G : Grammar ℝ W} {behind : Category → ℝ}

/-- A category that is enough of a left corner of itself makes the series diverge. -/
theorem Compiled.cornersDiverge_of_self (hG : G.Compiled solver) (hbehind : ∀ c, 0 ≤ behind c)
    {x : Category} (hx : x ∈ G.names) (hself : 1 - 1e-12 ≤ G.cornerWeight behind x x) :
    G.CornersDiverge behind := by
  obtain ⟨i, hi⟩ := List.get_of_mem hx
  have hdiag : 1 - 1e-12 ≤ G.cornerMatrix behind i i := by
    show _ ≤ G.cornerWeight behind (G.names.get i) (G.names.get i)
    rwa [hi]
  refine (ENNReal.ofReal_le_ofReal hdiag).trans (ofReal_diag_le_spectralRadius (fun j l => ?_) i)
  exact (hG.cornerMatrix_le (fun c => ⟨hbehind c, le_refl _⟩) j l).1

/-- The series converges if no category has too many left corners. -/
theorem Compiled.not_cornersDiverge (hG : G.Compiled solver) (hbehind : ∀ c, 0 ≤ behind c)
    {bound : ℝ} (hbound : bound < 1 - 1e-12)
    (hcorners : ∀ x ∈ G.names, ∑ y ∈ G.names.toFinset, G.cornerWeight behind x y ≤ bound) :
    ¬ G.CornersDiverge behind := by
  have hradius : spectralRadius ℂ ((G.cornerMatrix behind).map Complex.ofReal)
      ≤ ENNReal.ofReal bound := by
    refine spectralRadius_le_of_sum_le (fun i j => ?_) fun i => ?_
    · exact (hG.cornerMatrix_le (fun c => ⟨hbehind c, le_refl _⟩) i j).1
    · exact (hG.sum_names _).trans_le (hcorners _ (List.get_mem G.names i))
  intro hdiverge
  refine absurd (hdiverge.trans hradius) (not_le.mpr ?_)
  exact (ENNReal.ofReal_lt_ofReal_iff (by norm_num)).mpr hbound

/-- What diverges also does if more counts for what stands behind the corners. -/
theorem Compiled.cornersDiverge_mono (hG : G.Compiled solver) {behind' : Category → ℝ}
    (h : ∀ c, 0 ≤ behind c ∧ behind c ≤ behind' c) (hdiverge : G.CornersDiverge behind) :
    G.CornersDiverge behind' :=
  hdiverge.trans (spectralRadius_mono (fun i j => (hG.cornerMatrix_le h i j).1)
    fun i j => (hG.cornerMatrix_le h i j).2)

end Grammar

/-! ## Refusals -/

/-- Linear algebra that takes every series for convergent. It serves to speak of a grammar whose
chains another solver would not sum up. -/
def lenientSolver {P : Type} [Zero P] : Solver P where
  inverse m := m
  radius _ := 0

namespace Star

variable {α : Type} [BEq α] {solver : Solver ℝ} {names : List α} {edges : List (α × α × ℝ)}

theorem exists_closure_lenient {places : List (Fin names.length × Fin names.length × ℝ)}
    (hplaces : edges.mapM (resolve names) = .ok places) :
    ∃ table, closure lenientSolver names edges = .ok table := by
  by_cases hne : names = []
  · subst hne
    exact ⟨[], rfl⟩
  · have hradius : ¬ 1 - 1e-12 ≤ radiusOf lenientSolver (weights places) := by
      unfold radiusOf
      split <;> norm_num [lenientSolver]
    exact ⟨_, (closure_eq_ite hne hplaces).trans (if_neg hradius)⟩

/-- A closure over names is refused for its radius only. -/
theorem closure_divergent_iff (hsolver : solver.IsExact)
    {places : List (Fin names.length × Fin names.length × ℝ)}
    (hplaces : edges.mapM (resolve names) = .ok places) :
    (∃ radius, closure solver names edges = .error (.divergent radius))
      ↔ ENNReal.ofReal (1 - 1e-12)
        ≤ spectralRadius ℂ ((weights places).toMatrix.map Complex.ofReal) := by
  have hpos : 0 < ENNReal.ofReal (1 - 1e-12) := ENNReal.ofReal_pos.mpr (by norm_num)
  by_cases hne : names = []
  · -- without names there is nothing to sum up
    subst hne
    have : Subsingleton (Matrix (Fin ([] : List α).length) (Fin ([] : List α).length) ℂ) :=
      inferInstanceAs (Subsingleton (Matrix (Fin 0) (Fin 0) ℂ))
    have hzero : spectralRadius ℂ ((weights places).toMatrix.map Complex.ofReal) = 0 :=
      spectrum.SpectralRadius.of_subsingleton _
    rw [hzero]
    constructor
    · intro h
      obtain ⟨radius, h⟩ := h
      cases h
    · exact fun h => absurd h (not_le.mpr hpos)
  · obtain ⟨hnonneg, hradius⟩ :=
      ofReal_radiusOf hsolver (List.length_pos_iff.mpr hne) (weights places)
    rw [closure_eq_ite hne hplaces, ← hradius, ENNReal.ofReal_le_ofReal_iff hnonneg]
    split
    · rename_i hle
      exact ⟨fun _ => hle, fun _ => ⟨_, rfl⟩⟩
    · rename_i hlt
      constructor
      · intro h
        obtain ⟨radius, h⟩ := h
        cases h
      · exact fun hle => absurd hle hlt

/-- What is not refused for its radius is summed up. -/
theorem exists_closure_of_lt (hsolver : solver.IsExact)
    {places : List (Fin names.length × Fin names.length × ℝ)}
    (hplaces : edges.mapM (resolve names) = .ok places)
    (hlt : spectralRadius ℂ ((weights places).toMatrix.map Complex.ofReal)
      < ENNReal.ofReal (1 - 1e-12)) : ∃ table, closure solver names edges = .ok table := by
  have hconverges := mt (closure_divergent_iff hsolver hplaces).mp (not_le.mpr hlt)
  by_cases hne : names = []
  · subst hne
    exact ⟨[], rfl⟩
  · rw [closure_eq_ite hne hplaces] at hconverges ⊢
    split
    · next hle => exact absurd ⟨_, if_pos hle⟩ hconverges
    · exact ⟨_, rfl⟩

/-- Fewer edges have less weight. -/
theorem weights_le_of_sublist {n : Nat} {es' es : List (Fin n × Fin n × ℝ)} (h : es'.Sublist es)
    (hes : ∀ e ∈ es, 0 ≤ e.2.2) (i j : Fin n) :
    0 ≤ (weights es').toMatrix i j ∧ (weights es').toMatrix i j ≤ (weights es).toMatrix i j := by
  have hentry : ∀ l : List (Fin n × Fin n × ℝ), (weights l).toMatrix i j
      = ((l.filter fun e => decide (e.1 = i ∧ e.2.1 = j)).map (·.2.2)).sum := by
    intro l
    show (weights l).entry i j = _
    rw [weights, Square.entry_ofFn, Probability.sum_eq]
  have hnonneg : ∀ w ∈ (es.filter fun e => decide (e.1 = i ∧ e.2.1 = j)).map (·.2.2), 0 ≤ w := by
    intro w hw
    obtain ⟨e, he, rfl⟩ := List.mem_map.mp hw
    exact hes e (List.mem_filter.mp he).1
  have hsub := (h.filter fun e => decide (e.1 = i ∧ e.2.1 = j)).map (·.2.2)
  rw [hentry, hentry]
  exact ⟨List.sum_nonneg fun w hw => hnonneg w (hsub.subset hw), hsub.sum_le_sum hnonneg⟩

end Star

namespace Grammar

variable {W : Type} [DecidableEq W] {solver : Solver ℝ}

omit [DecidableEq W] in
/-- The rules that a grammar is compiled to have left corners among its names. -/
theorem exists_leftPlaces (names : List Category) (flat : List (Production ℝ W)) :
    ∃ places, (leftEdges names ((indexProductions names flat).flatMap fun entry =>
      entry.2.map (·.rule))).mapM (Star.resolve names) = .ok places := by
  apply exists_mapM
  intro e he
  obtain ⟨r, hr, rest, _, hexpands, hlhs, _⟩ := mem_leftEdges.mp he
  obtain ⟨entry, hentry, hr⟩ := List.mem_flatMap.mp hr
  obtain ⟨q, hq, rfl⟩ := List.mem_map.mp hr
  obtain ⟨x, hx, rfl⟩ := List.mem_map.mp hentry
  have hsource : names.contains e.1 = true :=
    List.contains_iff_exists_mem_beq.mpr ⟨x, hx, hlhs ▸ (List.mem_filter.mp hq).2⟩
  exact Star.exists_resolve hsource (Bool.and_eq_true_iff.mp hexpands).2

/-- Nothing but what comes before the chains keeps rules from being compiled leniently. -/
theorem exists_ofRules_lenient {A : ScoreAlgebra ℝ W} {given rules : List (Rule ℝ W)}
    (hrules : merge A given = .ok rules) {masses : Empty.Masses ℝ}
    (hmasses : Empty.masses (RuleIndex.ofRules rules) (Empty.nullable (RuleIndex.ofRules rules))
      = .ok masses) {flat : List (Production ℝ W)}
    (hflat : Omission.eliminate A (Empty.nullable (RuleIndex.ofRules rules)) (Empty.massAt masses)
      (Empty.bestAt (Empty.choices (RuleIndex.ofRules rules))) rules = .ok flat) :
    ∃ G, ofRules lenientSolver A given = .ok G ∧ G.rules = rules ∧
      G.index = RuleIndex.ofRules rules ∧ G.masses = masses ∧
      G.productions = indexProductions G.names flat := by
  obtain ⟨places, hplaces⟩ := exists_leftPlaces (RuleIndex.ofRules rules).keys flat
  obtain ⟨places', hplaces', _⟩ := exists_mapM_of_sublist (unitEdges_sublist _ _) hplaces
  obtain ⟨left, hleft⟩ := Star.exists_closure_lenient hplaces
  obtain ⟨unit, hunit⟩ := Star.exists_closure_lenient hplaces'
  refine ⟨_, bind_eq_ok.mpr ⟨rules, mapError_eq_ok.mpr hrules, bind_eq_ok.mpr ⟨masses,
    mapError_eq_ok.mpr hmasses, bind_eq_ok.mpr ⟨flat, mapError_eq_ok.mpr hflat,
    bind_eq_ok.mpr ⟨left, mapError_eq_ok.mpr hleft,
    bind_eq_ok.mpr ⟨unit, mapError_eq_ok.mpr hunit, rfl⟩⟩⟩⟩⟩,
    rfl, rfl, rfl, rfl⟩

/-- Rules are refused for their left corners when all before these is in order. -/
theorem ofRules_refused_iff {A : ScoreAlgebra ℝ W} {given : List (Rule ℝ W)} :
    (∃ radius, ofRules solver A given = .error (.closure "left-corner" (.divergent radius)))
      ↔ ∃ G, ofRules lenientSolver A given = .ok G ∧
        ∃ radius, Star.closure solver G.names (leftEdges G.names G.compiledRules)
          = .error (.divergent radius) := by
  constructor
  · intro hrefused
    obtain ⟨radius, h⟩ := hrefused
    unfold ofRules at h
    rcases bind_eq_error.mp h with herror | ⟨rules, hrules, h⟩
    · obtain ⟨_, _, heq⟩ := mapError_eq_error.mp herror
      cases heq
    rcases bind_eq_error.mp h with herror | ⟨masses, hmasses, h⟩
    · obtain ⟨_, _, heq⟩ := mapError_eq_error.mp herror
      cases heq
    rcases bind_eq_error.mp h with herror | ⟨flat, hflat, h⟩
    · obtain ⟨_, _, heq⟩ := mapError_eq_error.mp herror
      cases heq
    rcases bind_eq_error.mp h with herror | ⟨left, hleft, h⟩
    · obtain ⟨e, hclosure, heq⟩ := mapError_eq_error.mp herror
      cases heq
      rw [mapError_eq_ok] at hrules hmasses hflat
      obtain ⟨G, hG, _, hindex, _, hproductions⟩ := exists_ofRules_lenient hrules hmasses hflat
      refine ⟨G, hG, radius, ?_⟩
      rw [compiledRules, hproductions, names, hindex]
      exact hclosure
    rcases bind_eq_error.mp h with herror | ⟨unit, hunit, h⟩
    · obtain ⟨_, _, heq⟩ := mapError_eq_error.mp herror
      have hwhat := (GrammarError.closure.inj heq).1
      exact absurd hwhat (by decide)
    · cases h
  · intro hlenient
    obtain ⟨G, h, radius, hclosure⟩ := hlenient
    obtain ⟨rules, hrules, h⟩ := bind_eq_ok.mp h
    obtain ⟨masses, hmasses, h⟩ := bind_eq_ok.mp h
    obtain ⟨flat, hflat, h⟩ := bind_eq_ok.mp h
    obtain ⟨left, hleft, h⟩ := bind_eq_ok.mp h
    obtain ⟨unit, hunit, h⟩ := bind_eq_ok.mp h
    cases h
    exact ⟨radius, bind_eq_error.mpr (.inr ⟨rules, hrules, bind_eq_error.mpr (.inr ⟨masses, hmasses,
      bind_eq_error.mpr (.inr ⟨flat, hflat, bind_eq_error.mpr (.inl
        (mapError_eq_error.mpr ⟨_, hclosure, rfl⟩))⟩)⟩)⟩)⟩

/-- What is compiled leniently is compiled by a solver that sums up its chains. -/
theorem ofRules_of_lenient {A : ScoreAlgebra ℝ W} {given : List (Rule ℝ W)} {G : Grammar ℝ W}
    (h : ofRules lenientSolver A given = .ok G) {left unit : Table Category (Table Category ℝ)}
    (hleft : Star.closure solver G.names (leftEdges G.names G.compiledRules) = .ok left)
    (hunit : Star.closure solver G.names (unitEdges G.names G.compiledRules) = .ok unit) :
    ofRules solver A given
      = .ok { G with leftCorners := encode A left, unitChains := encode A unit } := by
  obtain ⟨rules, hrules, h⟩ := bind_eq_ok.mp h
  obtain ⟨masses, hmasses, h⟩ := bind_eq_ok.mp h
  obtain ⟨flat, hflat, h⟩ := bind_eq_ok.mp h
  obtain ⟨_, _, h⟩ := bind_eq_ok.mp h
  obtain ⟨_, _, h⟩ := bind_eq_ok.mp h
  cases h
  exact bind_eq_ok.mpr ⟨rules, hrules, bind_eq_ok.mpr ⟨masses, hmasses, bind_eq_ok.mpr ⟨flat, hflat,
    bind_eq_ok.mpr ⟨left, mapError_eq_ok.mpr hleft, bind_eq_ok.mpr ⟨unit, mapError_eq_ok.mpr hunit,
      rfl⟩⟩⟩⟩⟩

omit [DecidableEq W] in
/-- Rules with proper probabilities are expanded if no symbol is empty with more than one. -/
theorem exists_eliminate {A : ScoreAlgebra ℝ W} {nullable : List Category}
    {mass best : Category → ℝ} (hmass : ∀ c, 0 ≤ mass c ∧ mass c ≤ 1) {rules : List (Rule ℝ W)}
    (hrules : ∀ r ∈ rules, 0 < r.probability ∧ r.probability ≤ 1) :
    ∃ flat, Omission.eliminate A nullable mass best rules = .ok flat := by
  have hvariants : ∀ r ∈ rules, ∃ vs, Omission.variants A nullable mass best r = .ok vs := by
    intro r hr
    apply exists_mapM
    intro entry hentry
    obtain ⟨hmem, hpos⟩ := List.mem_filter.mp hentry
    obtain ⟨o, _, rfl⟩ := List.mem_map.mp hmem
    have hprod := List.prod_map_le_prod_map₀ (s := o) (fun place => mass place.1) (fun _ => 1)
      (fun place _ => (hmass place.1).1) fun place _ => (hmass place.1).2
    rw [List.map_const', List.prod_replicate, one_pow, ← Probability.prod_eq] at hprod
    have hle : Omission.scaled mass r o ≤ 1 :=
      (mul_le_of_le_one_right (hrules r hr).1.le hprod).trans (hrules r hr).2
    exact ⟨_, Omission.variant_eq_ok.mpr ⟨⟨rfl, not_le.mp (of_decide_eq_true hpos), hle⟩, rfl⟩⟩
  have hexpand : ∀ r ∈ rules, ∃ qs, Omission.expand A nullable mass best r = .ok qs := by
    intro r hr
    unfold Omission.expand
    split
    · exact ⟨[], rfl⟩
    · obtain ⟨vs, hvs⟩ := hvariants r hr
      exact ⟨_, bind_eq_ok.mpr ⟨vs, hvs, rfl⟩⟩
  obtain ⟨qss, hqss⟩ := exists_mapM hexpand
  exact ⟨qss.flatten, bind_eq_ok.mpr ⟨qss, hqss, rfl⟩⟩

end Grammar

namespace Builder

variable {W : Type} [DecidableEq W] {solver : Solver ℝ} {A : ScoreAlgebra ℝ W} {b : Builder ℝ W}

open Grammar

/-- The rules are refused because the series of their left corners is taken not to converge. -/
def RefusesCorners (b : Builder ℝ W) (solver : Solver ℝ) : Prop :=
  ∃ radius, b.build solver = .error (.closure "left-corner" (.divergent radius))

/-- **Rules are refused for their left corners** if what the edges count diverges. -/
theorem Collected.build_refused_iff (hb : b.Collected A) (hsolver : solver.IsExact) :
    b.RefusesCorners solver
      ↔ ∃ G, b.build lenientSolver = .ok G ∧
        G.CornersDiverge fun c => 1 + G.emptyProbability c := by
  have hdiverge : ∀ {G}, b.build lenientSolver = .ok G →
      ((∃ radius, Star.closure solver G.names (leftEdges G.names G.compiledRules)
          = .error (.divergent radius)) ↔ G.CornersDiverge fun c => 1 + G.emptyProbability c) := by
    intro G hG
    obtain ⟨hC, _⟩ := Built.compiled ⟨b, hb, hG⟩
    obtain ⟨flat, _, hproductions⟩ := hC.productions
    obtain ⟨places, hplaces⟩ := exists_leftPlaces G.names flat
    rw [← hproductions, ← compiledRules] at hplaces
    rw [Star.closure_divergent_iff hsolver hplaces, hC.toMatrix_weights hplaces]
    rfl
  constructor
  · intro hrefused
    obtain ⟨radius, h⟩ := hrefused
    rcases bind_eq_error.mp h with herror | ⟨rules, hrules, h⟩
    · obtain ⟨_, _, hcreate⟩ := exists_of_mapM_error herror
      obtain ⟨_, _, heq⟩ := mapError_eq_error.mp hcreate
      cases heq
    obtain ⟨G, hG, hclosure⟩ := ofRules_refused_iff.mp ⟨radius, h⟩
    have hbuild : b.build lenientSolver = .ok G := bind_eq_ok.mpr ⟨rules, hrules, hG⟩
    exact ⟨G, hbuild, (hdiverge hbuild).mp hclosure⟩
  · intro hlenient
    obtain ⟨G, hbuild, hG⟩ := hlenient
    obtain ⟨rules, hrules, hofRules⟩ := bind_eq_ok.mp hbuild
    obtain ⟨radius, h⟩ := ofRules_refused_iff.mpr ⟨G, hofRules, (hdiverge hbuild).mpr hG⟩
    exact ⟨radius, bind_eq_error.mpr (.inr ⟨rules, hrules, h⟩)⟩

/-- **Rules are refused for no other chains**: unit chains are left corners too, so that what is
compiled leniently is built if the edges of its left corners converge. -/
theorem Collected.exists_build_of_converges (hb : b.Collected A) (hsolver : solver.IsExact)
    {G : Grammar ℝ W} (hG : b.build lenientSolver = .ok G)
    (hconverges : ¬ G.CornersDiverge fun c => 1 + G.emptyProbability c) :
    ∃ left unit, b.build solver = .ok { G with leftCorners := left, unitChains := unit } := by
  obtain ⟨hC, _⟩ := Built.compiled ⟨b, hb, hG⟩
  obtain ⟨flat, _, hproductions⟩ := hC.productions
  obtain ⟨places, hplaces⟩ := exists_leftPlaces G.names flat
  rw [← hproductions, ← compiledRules] at hplaces
  obtain ⟨places', hplaces', hsub⟩ := exists_mapM_of_sublist (unitEdges_sublist _ _) hplaces
  have hnonneg : ∀ place ∈ places, 0 ≤ place.2.2 := by
    intro place hplace
    obtain ⟨e, he, hresolve⟩ := exists_of_mem_mapM hplaces hplace
    rw [(Star.resolve_eq_ok hresolve).2.2]
    exact (leftEdges_pos _ (fun _ => hC.probability_pos) e he).le
  have hleft := not_le.mp hconverges
  rw [← hC.toMatrix_weights hplaces] at hleft
  have hunit := (spectralRadius_mono (fun i j => (Star.weights_le_of_sublist hsub hnonneg i j).1)
    fun i j => (Star.weights_le_of_sublist hsub hnonneg i j).2).trans_lt hleft
  obtain ⟨left, hleft⟩ := Star.exists_closure_of_lt hsolver hplaces hleft
  obtain ⟨unit, hunit⟩ := Star.exists_closure_of_lt hsolver hplaces' hunit
  obtain ⟨rules, hrules, hofRules⟩ := bind_eq_ok.mp hG
  exact ⟨_, _, bind_eq_ok.mpr ⟨rules, hrules, ofRules_of_lenient hofRules hleft hunit⟩⟩

/-- Different rules with proper probabilities are compiled leniently, if no symbol is empty with
more than one. -/
theorem exists_build_lenient (A : ScoreAlgebra ℝ W) {given : List (RuleHead × ℝ)}
    (hproper : ∀ r ∈ given, (0 < r.2 ∧ r.2 ≤ 1) ∧ r.1.IsPlain)
    (hdistinct : given.Pairwise fun a b => ¬ (a.1 == b.1) = true) {rules : List (Rule ℝ W)}
    (hrules : rules = given.map fun r => .given ⟨r.1, r.2, A.ofProbability r.2, [], 0⟩)
    {masses : Empty.Masses ℝ}
    (hmasses : Empty.masses (RuleIndex.ofRules rules) (Empty.nullable (RuleIndex.ofRules rules))
      = .ok masses) (hle : ∀ c, 0 ≤ Empty.massAt masses c ∧ Empty.massAt masses c ≤ 1) :
    ∃ b G, (Builder.empty A false).addRules given = .ok b ∧ b.Collected A ∧
      b.build lenientSolver = .ok G ∧ G.rules = rules ∧ G.masses = masses := by
  have hadd := (Builder.empty A false).addRules_of_distinct
    (fun r hr => ⟨isProper_of_mem_unit (hproper r hr).1, (hproper r hr).2⟩) hdistinct
    fun _ _ e he => (by cases he)
  have hentries : ∀ e ∈ given.map (fun r => (⟨r.1, r.2⟩ : RuleEntry ℝ)),
      0 < e.probability ∧ e.probability ≤ 1 := by
    intro e he
    obtain ⟨r, hr, rfl⟩ := List.mem_map.mp he
    exact (hproper r hr).1
  have hcreate := mapM_create A hentries
  have hunit : ∀ r ∈ rules, 0 < r.probability ∧ r.probability ≤ 1 := by
    intro r hr
    rw [hrules] at hr
    obtain ⟨r', hr', rfl⟩ := List.mem_map.mp hr
    exact (hproper r' hr').1
  obtain ⟨flat, hflat⟩ := exists_eliminate hle hunit
  have hmerge : merge A rules = .ok rules := by
    apply merge_of_distinct
    rw [hrules]
    exact List.pairwise_map.mpr hdistinct
  obtain ⟨G, hG, hGrules, _, hGmasses, _⟩ := exists_ofRules_lenient hmerge hmasses hflat
  rw [List.map_map] at hcreate
  rw [hrules] at hG
  exact ⟨_, G, hadd, (Collected.empty false).addRules hadd,
    bind_eq_ok.mpr ⟨_, hcreate, hG⟩, hGrules, hGmasses⟩

/-- **What a refusal of left corners says.** Rules are refused for them if what the edges count
diverges. So they are if their own left corners diverge; and for no other reason, if nothing that
can be empty stands behind a left corner. -/
theorem left_corner_refusal_counts_every_way (hb : b.Collected A) (hsolver : solver.IsExact) :
    (b.RefusesCorners solver ↔
      ∃ G, b.build lenientSolver = .ok G ∧ G.CornersDiverge fun c => 1 + G.emptyProbability c) ∧
    ∀ G, b.build lenientSolver = .ok G →
      (G.CornersDiverge (fun _ => 1) → b.RefusesCorners solver) ∧
      (G.KeepsBehind → b.RefusesCorners solver → G.CornersDiverge fun _ => 1) := by
  refine ⟨hb.build_refused_iff hsolver, fun G hG => ?_⟩
  obtain ⟨hC, _⟩ := Built.compiled ⟨b, hb, hG⟩
  constructor
  · intro hdiverge
    refine (hb.build_refused_iff hsolver).mpr ⟨G, hG, hC.cornersDiverge_mono (fun c => ?_) hdiverge⟩
    exact ⟨zero_le_one, le_add_of_nonneg_right (hC.emptyProbability_nonneg c)⟩
  · intro hkeeps hrefused
    obtain ⟨G', hG', hdiverge⟩ := (hb.build_refused_iff hsolver).mp hrefused
    cases hG.symm.trans hG'
    unfold CornersDiverge at hdiverge
    rwa [hC.cornerMatrix_eq hkeeps] at hdiverge

/-- A category that always begins with itself. -/
noncomputable def leftRecursive : List (RuleHead × ℝ) :=
  [(⟨.plain, .name "S", [.name "S", .name "a"]⟩, 1)]

/-- Nothing can be empty here, and the only left corner leads back with certainty. -/
theorem left_recursion_is_refused :
    ∃ b G, (Builder.empty (linearScores ℝ) false).addRules leftRecursive = .ok b ∧
      b.build lenientSolver = .ok G ∧ G.KeepsBehind ∧ b.RefusesCorners realSolver ∧
      G.CornersDiverge fun _ => 1 := by
  have hproper : ∀ r ∈ leftRecursive, (0 < r.2 ∧ r.2 ≤ 1) ∧ r.1.IsPlain :=
    List.forall_mem_singleton.mpr ⟨⟨one_pos, le_refl 1⟩, rfl, by simp, by simp⟩
  obtain ⟨b, G, hadd, hb, hG, hrules, _⟩ := exists_build_lenient (linearScores ℝ) hproper
    (List.pairwise_singleton _ _) rfl (Empty.masses_nil _) fun c => ⟨le_refl 0, zero_le_one⟩
  obtain ⟨hC, _⟩ := Built.compiled ⟨_, hb, hG⟩
  have hkeeps : G.KeepsBehind := by
    intro _ _ _ _ _ _ _ c _
    unfold isNullable
    rw [hC.nullable, hC.index, hrules]
    rfl
  have hself : G.cornerWeight (fun _ => 1) (.name "S") (.name "S") = 1 := by
    unfold cornerWeight sourceRulesOf
    rw [hC.index, hrules]
    show [1 * cornerShare G.emptyProbability _ _ [.name "S", .name "a"]].sum = _
    simp [cornerShare_cons, cornerShare_nil]
  have hdiverge : G.CornersDiverge fun _ => 1 := by
    refine hC.cornersDiverge_of_self (x := .name "S") (fun _ => zero_le_one) ?_ ?_
    · rw [hC.mem_names, hrules]
      exact ⟨_, List.mem_singleton_self _, rfl⟩
    · rw [hself]
      norm_num
  obtain ⟨hrefused, hown⟩ := (left_corner_refusal_counts_every_way hb isExact_realSolver).2 G hG
  exact ⟨b, G, hadd, hG, hkeeps, hrefused hdiverge, hown hkeeps (hrefused hdiverge)⟩

/-- A category that begins with itself most of the time, with a symbol behind it that is most often
empty. -/
noncomputable def emptyTail : List (RuleHead × ℝ) :=
  [(⟨.plain, .name "S", [.name "S", .name "B"]⟩, 7 / 10),
    (⟨.plain, .name "S", [.name "a"]⟩, 3 / 10),
    (⟨.plain, .name "B", [.name "b"]⟩, 3 / 10),
    (⟨.plain, .name "B", []⟩, 7 / 10)]

/-- The rules that a builder makes of this. -/
noncomputable def emptyTailRules : List (Rule ℝ ℝ) :=
  emptyTail.map fun r => .given ⟨r.1, r.2, r.2, [], 0⟩

theorem masses_emptyTail : Empty.masses (RuleIndex.ofRules emptyTailRules)
    (Empty.nullable (RuleIndex.ofRules emptyTailRules)) = .ok [(.name "B", 7 / 10)] := by
  refine Empty.masses_of_constant rfl (fun q => ?_) (by norm_num)
  show [((.name "B" : Category), Probability.sum [(7 / 10 : ℝ) * Probability.prod []])] = _
  simp [Probability.sum_eq, Probability.prod_eq]

/-- The grammar of the rules, if its chains are not looked at. -/
theorem exists_emptyTail :
    ∃ b G, (Builder.empty (linearScores ℝ) false).addRules emptyTail = .ok b ∧
      b.Collected (linearScores ℝ) ∧ b.build lenientSolver = .ok G ∧ G.rules = emptyTailRules ∧
      G.masses = [(.name "B", 7 / 10)] := by
  have hproper : ∀ r ∈ emptyTail, 0 < r.2 ∧ r.2 ≤ 1 := by
    simp only [emptyTail, List.forall_mem_cons]
    norm_num
  have hplain : ∀ r ∈ emptyTail, r.1.IsPlain := by
    simp [emptyTail, RuleHead.IsPlain, Category.isTerminalObject]
  have hdistinct : emptyTail.Pairwise fun a b => ¬ (a.1 == b.1) = true := by
    simp only [emptyTail, List.pairwise_cons]
    decide
  refine exists_build_lenient (linearScores ℝ)
    (fun r hr => ⟨hproper r hr, hplain r hr⟩) hdistinct rfl masses_emptyTail fun c => ?_
  rw [Empty.massAt, Table.get?_cons]
  split <;> norm_num

/-- The rules are refused although their own left corners converge: the category is its own left
corner with `7/10`, and the edges count `7/10 * (1 + 7/10)` for it. -/
theorem convergent_corners_are_refused :
    ∃ b G, (Builder.empty (linearScores ℝ) false).addRules emptyTail = .ok b ∧
      b.build lenientSolver = .ok G ∧ ¬ G.CornersDiverge (fun _ => 1) ∧
      b.RefusesCorners realSolver := by
  obtain ⟨b, G, hadd, hb, hG, hrules, hmasses⟩ := exists_emptyTail
  obtain ⟨hC, _⟩ := Built.compiled ⟨_, hb, hG⟩
  have hempty : G.emptyProbability (.name "S") = 0 ∧ G.emptyProbability (.name "B") = 7 / 10 := by
    unfold emptyProbability
    rw [hmasses]
    exact ⟨rfl, rfl⟩
  have hnames : G.names = [.name "S", .name "B"] := by
    unfold names
    rw [hC.index, hrules]
    rfl
  have hS : ∀ behind y, G.cornerWeight behind (.name "S") y
      = [7 / 10 * cornerShare G.emptyProbability behind y [.name "S", .name "B"],
        3 / 10 * cornerShare G.emptyProbability behind y [.name "a"]].sum := by
    intro behind y
    unfold cornerWeight sourceRulesOf
    rw [hC.index, hrules]
    rfl
  have hB : ∀ behind y, G.cornerWeight behind (.name "B") y
      = [3 / 10 * cornerShare G.emptyProbability behind y [.name "b"],
        7 / 10 * cornerShare G.emptyProbability behind y []].sum := by
    intro behind y
    unfold cornerWeight sourceRulesOf
    rw [hC.index, hrules]
    rfl
  have hcounted : 1 - 1e-12
      ≤ G.cornerWeight (fun c => 1 + G.emptyProbability c) (.name "S") (.name "S") := by
    simp [hS, cornerShare_cons, cornerShare_nil, hempty]
    norm_num
  have hown : ∀ x ∈ G.names, ∑ y ∈ G.names.toFinset, G.cornerWeight (fun _ => 1) x y ≤ 7 / 10 := by
    rw [hnames]
    simp [hS, hB, cornerShare_cons, cornerShare_nil, hempty]
    norm_num
  refine ⟨b, G, hadd, hG, hC.not_cornersDiverge (fun _ => zero_le_one) (by norm_num) hown,
    (hb.build_refused_iff isExact_realSolver).mpr ⟨G, hG, ?_⟩⟩
  refine hC.cornersDiverge_of_self (fun c => ?_) (hnames ▸ List.mem_cons_self) hcounted
  exact add_nonneg zero_le_one (hC.emptyProbability_nonneg c)

end Builder

end StochasticGrammar
