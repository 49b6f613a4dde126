import Mathlib
import StochasticGrammar.Proofs.Exact
import StochasticGrammar.Proofs.Star
import StochasticGrammar.Proofs.Sums

/-!
# Star closures as series

With exact linear algebra a closure holds what it is meant to hold: an entry is the sum over the
powers of the weight matrix, hence over all ways from one name to another.

> `Star.hasSum_inverse`: what the solver is asked for is the series of powers, if the radius is
> below one.
-/

namespace StochasticGrammar

open Filter Topology
open scoped ENNReal NNReal

/-! ## Powers -/

section Powers

variable {A : Type} [NormedRing A] [NormedAlgebra ℂ A] [CompleteSpace A]

/-- Below a spectral radius of one, the powers of an element can be summed up: in the long run they
are smaller than those of a number between the radius and one. -/
theorem summable_norm_pow {a : A} (h : spectralRadius ℂ a < 1) : Summable fun n : ℕ => ‖a ^ n‖ := by
  obtain ⟨r, hr, hr1⟩ := ENNReal.lt_iff_exists_nnreal_btwn.mp h
  have hr1 : (r : ℝ) < 1 := by exact_mod_cast hr1
  have hlim := spectrum.pow_nnnorm_pow_one_div_tendsto_nhds_spectralRadius a
  have hle : ∀ᶠ n : ℕ in atTop, ‖‖a ^ n‖‖ ≤ (r : ℝ) ^ n := by
    filter_upwards [hlim.eventually (gt_mem_nhds hr), eventually_gt_atTop 0] with n hn hpos
    have hne : (n : ℝ) ≠ 0 := Nat.cast_ne_zero.mpr hpos.ne'
    have hpow : (‖a ^ n‖₊ : ℝ≥0∞) ≤ (r : ℝ≥0∞) ^ n := by
      have hroot := ENNReal.rpow_le_rpow hn.le (Nat.cast_nonneg n)
      rwa [← ENNReal.rpow_mul, one_div_mul_cancel hne, ENNReal.rpow_one,
        ENNReal.rpow_natCast] at hroot
    rw [norm_norm]
    exact_mod_cast hpow
  exact Summable.of_norm_bounded_eventually_nat
    (summable_geometric_of_lt_one r.coe_nonneg hr1) hle

end Powers

section Matrices

variable {n : Nat}

open scoped Matrix.Norms.Operator in
/-- No entry is greater than the operator norm. -/
theorem norm_entry_le_opNorm (M : Matrix (Fin n) (Fin n) ℂ) (i j : Fin n) : ‖M i j‖ ≤ ‖M‖ := by
  rw [Matrix.linfty_opNorm_def, ← coe_nnnorm, NNReal.coe_le_coe]
  refine le_trans ?_ (Finset.le_sup (f := fun i => ∑ j, ‖M i j‖₊) (Finset.mem_univ i))
  exact Finset.single_le_sum (f := fun j => ‖M i j‖₊) (fun _ _ => zero_le) (Finset.mem_univ j)

open scoped Matrix.Norms.Operator in
theorem summable_entry_pow {M : Matrix (Fin n) (Fin n) ℝ}
    (h : spectralRadius ℂ (M.map Complex.ofReal) < 1) (i j : Fin n) :
    Summable fun k : ℕ => (M ^ k) i j := by
  refine Summable.of_norm_bounded (summable_norm_pow h) fun k => ?_
  have hmap : (M ^ k).map Complex.ofReal = M.map Complex.ofReal ^ k :=
    map_pow Complex.ofRealHom.mapMatrix M k
  rw [← hmap]
  refine le_trans (le_of_eq ?_) (norm_entry_le_opNorm _ i j)
  rw [Matrix.map_apply, Complex.norm_real]

/-- **The series of the powers is the inverse of the difference from one.** -/
theorem hasSum_pow_entry {M : Matrix (Fin n) (Fin n) ℝ}
    (h : spectralRadius ℂ (M.map Complex.ofReal) < 1) :
    IsUnit (1 - M) ∧ ∀ i j, HasSum (fun k : ℕ => (M ^ k) i j) ((1 - M)⁻¹ i j) := by
  have hsummable : Summable fun k : ℕ => M ^ k :=
    Pi.summable.mpr fun i => Pi.summable.mpr fun j => summable_entry_pow h i j
  have hinv : (1 - M) * (tsum fun k : ℕ => M ^ k) = 1 := hsummable.one_sub_mul_tsum_pow
  refine ⟨(Matrix.isUnit_iff_isUnit_det _).mpr (Matrix.isUnit_det_of_right_inverse hinv),
    fun i j => ?_⟩
  rw [Matrix.inv_eq_right_inv hinv]
  exact Pi.hasSum.mp (Pi.hasSum.mp hsummable.hasSum i) j

variable {M : Matrix (Fin n) (Fin n) ℝ}

theorem pow_entry_nonneg (h : ∀ i j, 0 ≤ M i j) (k : ℕ) (i j : Fin n) : 0 ≤ (M ^ k) i j := by
  induction k generalizing j with
  | zero =>
    rw [pow_zero, Matrix.one_apply]
    split
    · exact zero_le_one
    · exact le_refl _
  | succ k ih =>
    rw [pow_succ, Matrix.mul_apply]
    exact Finset.sum_nonneg fun l _ => mul_nonneg (ih l) (h l j)

/-- Some power is positive exactly where a way of positive entries leads. -/
theorem exists_pow_entry_pos_iff (h : ∀ i j, 0 ≤ M i j) (i j : Fin n) :
    (∃ k, 0 < (M ^ k) i j) ↔ Relation.ReflTransGen (fun a b => 0 < M a b) i j := by
  constructor
  · rintro ⟨k, hk⟩
    induction k generalizing j with
    | zero =>
      by_cases hij : i = j
      · rw [hij]
      · rw [pow_zero, Matrix.one_apply_ne hij] at hk
        exact absurd hk (lt_irrefl 0)
    | succ k ih =>
      rw [pow_succ, Matrix.mul_apply] at hk
      obtain ⟨l, _, hl⟩ := (Finset.sum_pos_iff_of_nonneg fun l _ =>
        mul_nonneg (pow_entry_nonneg h k i l) (h l j)).mp hk
      have hfirst : 0 < (M ^ k) i l := pos_of_mul_pos_left hl (h l j)
      exact (ih l hfirst).tail (pos_of_mul_pos_right hl hfirst.le)
  · intro hway
    induction hway with
    | refl => exact ⟨0, by rw [pow_zero, Matrix.one_apply_eq]; exact zero_lt_one⟩
    | @tail l j _ hlj ih =>
      obtain ⟨k, hk⟩ := ih
      refine ⟨k + 1, ?_⟩
      rw [pow_succ, Matrix.mul_apply]
      exact Finset.sum_pos' (fun l _ => mul_nonneg (pow_entry_nonneg h k i l) (h l j))
        ⟨l, Finset.mem_univ l, mul_pos hk hlj⟩

end Matrices

/-! ## Exact linear algebra -/

/-- The entries as a matrix. -/
def Square.toMatrix {α : Type} {n : Nat} (m : Square n α) : Matrix (Fin n) (Fin n) α :=
  Matrix.of m.entry

/-- Linear algebra without rounding: inverses are inverses, and the radius is the greatest magnitude
of an eigenvalue. -/
structure Solver.IsExact (solver : Solver ℝ) : Prop where
  inverse : ∀ {n : Nat} (m : Square n ℝ), IsUnit m.toMatrix →
    (solver.inverse m).toMatrix = m.toMatrix⁻¹
  radius : ∀ {n : Nat} (m : Square n ℝ), 0 < n →
    IsGreatest (Set.image (‖·‖) (spectrum ℂ (m.toMatrix.map Complex.ofReal))) (solver.radius m)

namespace Star

variable {solver : Solver ℝ} {n : Nat}

theorem toMatrix_complement (m : Square n ℝ) : (complement m).toMatrix = 1 - m.toMatrix := by
  ext i j
  show (complement m).entry i j = _
  rw [complement, Square.entry_ofFn, Matrix.sub_apply, Matrix.one_apply]
  rfl

/-- **The radius that decides is the spectral radius.** -/
theorem ofReal_radiusOf (hsolver : solver.IsExact) (hn : 0 < n) (m : Square n ℝ) :
    0 ≤ radiusOf solver m ∧
      ENNReal.ofReal (radiusOf solver m) = spectralRadius ℂ (m.toMatrix.map Complex.ofReal) := by
  unfold radiusOf
  split
  · next hzero =>
    have hmatrix : m.toMatrix.map Complex.ofReal = 0 := by
      ext i j
      have hentry := List.all_eq_true.mp hzero (m.entry i j)
        (List.mem_flatMap.mpr ⟨i, List.mem_finRange i, List.mem_map_of_mem (List.mem_finRange j)⟩)
      show ((m.entry i j : ℝ) : ℂ) = 0
      rw [of_decide_eq_true hentry, Complex.ofReal_zero]
    rw [hmatrix, spectrum.spectralRadius_zero, ENNReal.ofReal_zero]
    exact ⟨le_refl 0, rfl⟩
  · have hnorm : ∀ z : ℂ, (‖z‖₊ : ℝ≥0∞) = ENNReal.ofReal ‖z‖ := by
      intro z
      rw [← ENNReal.ofReal_coe_nnreal, coe_nnnorm]
    obtain ⟨⟨z, hz, hradius⟩, hgreatest⟩ := hsolver.radius m hn
    have hradius : ‖z‖ = solver.radius m := hradius
    refine ⟨hradius ▸ norm_nonneg z, le_antisymm ?_ (iSup₂_le fun w hw => ?_)⟩
    · rw [← hradius, ← hnorm]
      exact le_iSup₂ (f := fun (w : ℂ) (_ : w ∈ spectrum ℂ (m.toMatrix.map Complex.ofReal)) =>
        (‖w‖₊ : ℝ≥0∞)) z hz
    · rw [hnorm]
      exact ENNReal.ofReal_le_ofReal (hgreatest (Set.mem_image_of_mem _ hw))

/-- The matrices whose closure is formed have a spectral radius below one. -/
theorem spectralRadius_lt_one (hsolver : solver.IsExact) (hn : 0 < n) {m : Square n ℝ}
    (h : ¬ 1 - 1e-12 ≤ radiusOf solver m) :
    spectralRadius ℂ (m.toMatrix.map Complex.ofReal) < 1 := by
  have hlt : radiusOf solver m < 1 := by
    have := not_le.mp h
    norm_num at this
    linarith
  rw [← (ofReal_radiusOf hsolver hn m).2]
  exact ENNReal.ofReal_lt_one.mpr hlt

/-- **What the solver is asked for is the series of powers.** -/
theorem hasSum_inverse (hsolver : solver.IsExact) {m : Square n ℝ}
    (h : ¬ 1 - 1e-12 ≤ radiusOf solver m) (i j : Fin n) :
    HasSum (fun k : ℕ => (m.toMatrix ^ k) i j) ((solver.inverse (complement m)).entry i j) := by
  obtain ⟨hunit, hsum⟩ := hasSum_pow_entry (spectralRadius_lt_one hsolver (Fin.pos i) h)
  rw [← toMatrix_complement] at hunit hsum
  have hinverse := congrFun (congrFun (hsolver.inverse _ hunit) i) j
  rw [show (solver.inverse (complement m)).entry i j = _ from hinverse]
  exact hsum i j

section Entries

variable {m : Square n ℝ}

theorem inverse_nonneg (hsolver : solver.IsExact) (hnonneg : ∀ i j, 0 ≤ m.entry i j)
    (h : ¬ 1 - 1e-12 ≤ radiusOf solver m) (i j : Fin n) :
    0 ≤ (solver.inverse (complement m)).entry i j :=
  (hasSum_inverse hsolver h i j).nonneg fun k => pow_entry_nonneg hnonneg k i j

/-- An entry of the inverse is positive where a way leads. -/
theorem entry_reach_iff_inverse_pos (hsolver : solver.IsExact) (hnonneg : ∀ i j, 0 ≤ m.entry i j)
    (h : ¬ 1 - 1e-12 ≤ radiusOf solver m) (i j : Fin n) :
    (Reach.closure (support m)).entry i j = true
      ↔ 0 < (solver.inverse (complement m)).entry i j := by
  have hsum := hasSum_inverse hsolver h i j
  have hpow := fun k => pow_entry_nonneg (M := m.toMatrix) hnonneg k i j
  have hway : (Reach.closure (support m)).entry i j = true ↔ ∃ k, 0 < (m.toMatrix ^ k) i j := by
    rw [Reach.entry_closure, exists_pow_entry_pos_iff (M := m.toMatrix) hnonneg]
    simp only [support, Square.entry_ofFn, decide_eq_true_eq]
    rfl
  rw [hway]
  constructor
  · rintro ⟨k, hk⟩
    exact hk.trans_le (le_hasSum hsum k fun l _ => hpow l)
  · intro hpos
    by_contra hno
    have hzero : ∀ k, (m.toMatrix ^ k) i j = 0 := fun k =>
      le_antisymm (not_lt.mp fun hk => hno ⟨k, hk⟩) (hpow k)
    simp only [hzero] at hsum
    exact hpos.ne (hasSum_zero.unique hsum)

/-- The inverse solves its equation: a way is none at all, or one edge with a way behind it or
before it. -/
theorem entry_inverse_eq (hsolver : solver.IsExact) (h : ¬ 1 - 1e-12 ≤ radiusOf solver m)
    (i j : Fin n) :
    (solver.inverse (complement m)).entry i j = (if i = j then 1 else 0)
        + ∑ l, m.entry i l * (solver.inverse (complement m)).entry l j ∧
      (solver.inverse (complement m)).entry i j = (if i = j then 1 else 0)
        + ∑ l, (solver.inverse (complement m)).entry i l * m.entry l j := by
  obtain ⟨hunit, _⟩ := hasSum_pow_entry (spectralRadius_lt_one hsolver (Fin.pos i) h)
  have hdet := (Matrix.isUnit_iff_isUnit_det _).mp hunit
  have hinverse : (solver.inverse (complement m)).toMatrix = (1 - m.toMatrix)⁻¹ := by
    rw [← toMatrix_complement] at hunit ⊢
    exact hsolver.inverse _ hunit
  have hleft : (1 - m.toMatrix) * (solver.inverse (complement m)).toMatrix = 1 := by
    rw [hinverse, Matrix.mul_nonsing_inv _ hdet]
  have hright : (solver.inverse (complement m)).toMatrix * (1 - m.toMatrix) = 1 := by
    rw [hinverse, Matrix.nonsing_inv_mul _ hdet]
  rw [sub_mul, one_mul, sub_eq_iff_eq_add] at hleft
  rw [mul_sub, mul_one, sub_eq_iff_eq_add] at hright
  have hleft := congrFun (congrFun hleft i) j
  have hright := congrFun (congrFun hright i) j
  rw [Matrix.add_apply, Matrix.one_apply, Matrix.mul_apply] at hleft hright
  exact ⟨hleft, hright⟩

end Entries

/-- **What a closure comes to** when its edges are between names: the radius decides. -/
theorem closure_eq_ite {α : Type} [BEq α] {names : List α} (hne : names ≠ [])
    {edges : List (α × α × ℝ)} {places : List (Fin names.length × Fin names.length × ℝ)}
    (hplaces : edges.mapM (resolve names) = .ok places) :
    closure solver names edges = if 1 - 1e-12 ≤ radiusOf solver (weights places) then
        .error (.divergent (radiusOf solver (weights places)))
      else .ok (tabulate names (solver.inverse (complement (weights places)))
        (Reach.closure (support (weights places)))) := by
  have hfinite : ¬ ((weights places).toList.any fun p => !Probability.isFinite p) = true := by
    simp [Probability.isFinite]
  unfold closure
  rw [if_neg (by simpa using hne), hplaces]
  refine (if_neg hfinite).trans ?_
  split <;> rfl

/-- An entry of the weight matrix is summed over the edges that end at its places. -/
theorem entry_weights_of_ends {α : Type} [BEq α] {names : List α} {edges : List (α × α × ℝ)}
    {places : List (Fin names.length × Fin names.length × ℝ)} {p : α → Fin names.length → Prop}
    [∀ x i, Decidable (p x i)]
    (hp : ∀ {x : α} {k : Fin names.length}, (names.get k == x) = true → ∀ i, k = i ↔ p x i)
    (hplaces : edges.mapM (resolve names) = .ok places) (i j : Fin names.length) :
    (weights places).entry i j
      = (edges.map fun e => if p e.1 i ∧ p e.2.1 j then e.2.2 else 0).sum := by
  rw [weights, Square.entry_ofFn, Probability.sum, ← List.sum_eq_foldl,
    sum_map_filter (fun e : Fin names.length × Fin names.length × ℝ => e.1 = i ∧ e.2.1 = j)]
  refine congrArg List.sum (map_eq_of_mapM hplaces fun edge _ place hresolve => ?_)
  obtain ⟨hx, hy, hw⟩ := resolve_eq_ok hresolve
  simp only [hp hx, hp hy, hw]

/-- An entry of the weight matrix is summed over the edges between two names. -/
theorem entry_weights {α : Type} [BEq α] [ReflBEq α] [DecidableEq α] {names : List α}
    {edges : List (α × α × ℝ)} {places : List (Fin names.length × Fin names.length × ℝ)}
    (hplain : ∀ (i : Fin names.length) b, (names.get i == b) = true → names.get i = b)
    (hdistinct : ∀ {i j : Fin names.length}, names.get i = names.get j → i = j)
    (hplaces : edges.mapM (resolve names) = .ok places) (i j : Fin names.length) :
    (weights places).entry i j
      = (edges.map fun e => if e.1 = names.get i ∧ e.2.1 = names.get j then e.2.2 else 0).sum := by
  refine entry_weights_of_ends (p := fun x i => x = names.get i) (fun {x k} hx i => ?_) hplaces i j
  rw [← hplain k x hx]
  exact ⟨congrArg names.get, hdistinct⟩

/-- Positive edges have no negative sums. -/
theorem weights_nonneg {α : Type} [BEq α] {names : List α} {edges : List (α × α × ℝ)}
    (hpos : ∀ e ∈ edges, 0 < e.2.2) {places : List (Fin names.length × Fin names.length × ℝ)}
    (hplaces : edges.mapM (resolve names) = .ok places) (i j : Fin names.length) :
    0 ≤ (weights places).entry i j := by
  rw [weights, Square.entry_ofFn, Probability.sum, ← List.sum_eq_foldl]
  refine List.sum_nonneg fun w hw => ?_
  obtain ⟨place, hplace, rfl⟩ := List.mem_map.mp hw
  obtain ⟨e, he, heq⟩ := exists_of_mem_mapM hplaces (List.mem_filter.mp hplace).1
  rw [(resolve_eq_ok heq).2.2]
  exact (hpos e he).le

end Star

end StochasticGrammar
