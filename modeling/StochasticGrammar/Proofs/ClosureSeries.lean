import StochasticGrammar.Proofs.CornerRefusal
import StochasticGrammar.Proofs.ExactSolver

/-!
# A closure holds the whole series

The values of a closure come from a matrix inverse, and which of them are kept is settled by a
search that knows nothing of values. The two agree: where the search leads, some power of the
weights is positive and so is the sum of all powers, and everywhere else all powers are zero. So a
closure drops nothing but zeros, whatever cycles its edges have.

> `IsSeries.of_hasSum`: the sum of all powers is the least solution of its equation.

> `closure_holds_the_whole_series`: what a closure holds, and when there is none.
-/

namespace StochasticGrammar.Star

open Filter Topology
open Relation (ReflTransGen)
open scoped ENNReal

/-! ## Series of a matrix -/

section Series

variable {n : Nat} {M R : Matrix (Fin n) (Fin n) ℝ}

/-- The second matrix is the series of the powers of the first: it solves the equation of the
series, nothing that is not negative and solves it is smaller, and the partial sums tend to it. -/
structure IsSeries (M R : Matrix (Fin n) (Fin n) ℝ) : Prop where
  nonneg : ∀ i j, 0 ≤ R i j
  fixed : ∀ i j, R i j = (if i = j then 1 else 0) + ∑ l, M i l * R l j
  least : ∀ S : Matrix (Fin n) (Fin n) ℝ, (∀ i j, 0 ≤ S i j) →
    (∀ i j, (if i = j then 1 else 0) + ∑ l, M i l * S l j ≤ S i j) → ∀ i j, R i j ≤ S i j
  tendsto : ∀ i j, Tendsto (fun m : ℕ => (∑ k ∈ Finset.range (m + 1), M ^ k) i j) atTop (𝓝 (R i j))

/-- One more power: a way is none at all, or an edge with a way behind it. -/
theorem sum_pow_succ (M : Matrix (Fin n) (Fin n) ℝ) (m : ℕ) (i j : Fin n) :
    (∑ k ∈ Finset.range (m + 1), M ^ k) i j
      = (if i = j then 1 else 0) + ∑ l, M i l * (∑ k ∈ Finset.range m, M ^ k) l j := by
  have hsplit : ∑ k ∈ Finset.range (m + 1), M ^ k = 1 + M * ∑ k ∈ Finset.range m, M ^ k := by
    rw [Finset.sum_range_succ', pow_zero, Finset.mul_sum, add_comm]
    simp only [pow_succ']
  rw [hsplit, Matrix.add_apply, Matrix.one_apply, Matrix.mul_apply]

/-- Every partial sum lies below whatever takes in its own edges. -/
theorem sum_pow_le (hM : ∀ i j, 0 ≤ M i j) {S : Matrix (Fin n) (Fin n) ℝ} (hS : ∀ i j, 0 ≤ S i j)
    (hclosed : ∀ i j, (if i = j then 1 else 0) + ∑ l, M i l * S l j ≤ S i j) (m : ℕ) (i j : Fin n) :
    (∑ k ∈ Finset.range m, M ^ k) i j ≤ S i j := by
  induction m generalizing i with
  | zero => exact hS i j
  | succ m ih =>
    rw [sum_pow_succ]
    refine le_trans ?_ (hclosed i j)
    gcongr with l
    · exact hM i l
    · exact ih l

/-- **The sum of all powers is the least solution of its equation.** -/
theorem IsSeries.of_hasSum (hM : ∀ i j, 0 ≤ M i j)
    (hfixed : ∀ i j, R i j = (if i = j then 1 else 0) + ∑ l, M i l * R l j)
    (hsum : ∀ i j, HasSum (fun k : ℕ => (M ^ k) i j) (R i j)) : IsSeries M R := by
  have htendsto : ∀ i j,
      Tendsto (fun m : ℕ => (∑ k ∈ Finset.range (m + 1), M ^ k) i j) atTop (𝓝 (R i j)) := by
    intro i j
    have hpartial := (hsum i j).tendsto_sum_nat.comp (tendsto_add_atTop_nat 1)
    simpa only [Function.comp_def, Matrix.sum_apply] using hpartial
  refine ⟨fun i j => (hsum i j).nonneg fun k => pow_entry_nonneg hM k i j, hfixed, ?_, htendsto⟩
  intro S hS hclosed i j
  exact le_of_tendsto' (htendsto i j) fun m => sum_pow_le hM hS hclosed (m + 1) i j

end Series

/-! ## Edges between names -/

section Names

variable {α : Type} [BEq α] {names : List α} {edges : List (α × α × ℝ)}

/-- The weights of all edges from one name to another, summed up. -/
noncomputable def edgeMatrix (names : List α) (edges : List (α × α × ℝ)) :
    Matrix (Fin names.length) (Fin names.length) ℝ :=
  Matrix.of fun i j =>
    (edges.map fun e =>
      if (names.get i == e.1 && names.get j == e.2.1) = true then e.2.2 else 0).sum

/-- An edge of positive weight leads from one name to another. -/
def Joined (names : List α) (edges : List (α × α × ℝ)) (i j : Fin names.length) : Prop :=
  ∃ e ∈ edges, (names.get i == e.1) = true ∧ (names.get j == e.2.1) = true ∧ 0 < e.2.2

/-- The entry of a table of rows, if it is there. -/
def valueAt? (table : Table α (Table α ℝ)) (x y : α) : Option ℝ :=
  Table.get? ((Table.get? table x).getD []) y

/-- The entries of a table of rows, zero where there is none. -/
def readOut (names : List α) (table : Table α (Table α ℝ)) :
    Matrix (Fin names.length) (Fin names.length) ℝ :=
  Matrix.of fun i j => (valueAt? table (names.get i) (names.get j)).getD 0

theorem edgeMatrix_nonneg (hedges : ∀ e ∈ edges, 0 ≤ e.2.2) (i j : Fin names.length) :
    0 ≤ edgeMatrix names edges i j := by
  refine List.sum_nonneg fun w hw => ?_
  obtain ⟨e, he, rfl⟩ := List.mem_map.mp hw
  split
  · exact hedges e he
  · exact le_refl 0

/-- The summed weight is positive where an edge of positive weight leads. -/
theorem edgeMatrix_pos_iff (hedges : ∀ e ∈ edges, 0 ≤ e.2.2) (i j : Fin names.length) :
    0 < edgeMatrix names edges i j ↔ Joined names edges i j := by
  have hterm : ∀ w ∈ edges.map fun e =>
      if (names.get i == e.1 && names.get j == e.2.1) = true then e.2.2 else 0, 0 ≤ w := by
    intro w hw
    obtain ⟨e, he, rfl⟩ := List.mem_map.mp hw
    split
    · exact hedges e he
    · exact le_refl 0
  constructor
  · intro hpos
    by_contra hnone
    refine hpos.ne' (List.sum_eq_zero fun w hw => ?_)
    obtain ⟨e, he, rfl⟩ := List.mem_map.mp hw
    split
    · next hends =>
      obtain ⟨hx, hy⟩ := Bool.and_eq_true_iff.mp hends
      exact le_antisymm (not_lt.mp fun hw => hnone ⟨e, he, hx, hy, hw⟩) (hedges e he)
    · rfl
  · rintro ⟨e, he, hx, hy, hw⟩
    refine hw.trans_le (List.single_le_sum hterm _ (List.mem_map.mpr ⟨e, he, ?_⟩))
    rw [if_pos (by rw [hx, hy]; rfl)]

variable [EquivBEq α] {places : List (Fin names.length × Fin names.length × ℝ)}

/-- The weights that a closure sums up. -/
theorem toMatrix_weights_eq_edgeMatrix (hnames : DistinctNames names)
    (hplaces : edges.mapM (resolve names) = .ok places) :
    (weights places).toMatrix = edgeMatrix names edges := by
  ext i j
  show (weights places).entry i j = _
  simp only [edgeMatrix, Matrix.of_apply, Bool.and_eq_true]
  refine entry_weights_of_ends (p := fun x i => (names.get i == x) = true) (fun {x k} hx l => ?_)
    hplaces i j
  constructor
  · rintro rfl
    exact hx
  · exact fun hl => hnames.index_eq (BEq.trans hx (BEq.symm hl))

variable {solver : Solver ℝ}

/-- What a closure over exact linear algebra holds between two names: what is not zero there. -/
theorem valueAt?_rows (hsolver : solver.IsExact) (hnames : DistinctNames names)
    (hedges : ∀ e ∈ edges, 0 ≤ e.2.2) (hplaces : edges.mapM (resolve names) = .ok places)
    (hradius : ¬ 1 - 1e-12 ≤ radiusOf solver (weights places)) (i j : Fin names.length) :
    let value := (solver.inverse (complement (weights places))).entry i j
    valueAt? (rows names (Reach.closure (support (weights places)))
        (solver.inverse (complement (weights places))).entry) (names.get i) (names.get j)
      = (if 0 < value then some value else none) ∧
    0 ≤ value ∧ (0 < value ↔ ReflTransGen (Joined names edges) i j) := by
  have hmatrix := toMatrix_weights_eq_edgeMatrix hnames hplaces
  have hentry : ∀ k l, (weights places).entry k l = edgeMatrix names edges k l :=
    fun k l => congrFun (congrFun hmatrix k) l
  have hnonneg : ∀ k l, 0 ≤ (weights places).entry k l := by
    intro k l
    rw [hentry]
    exact edgeMatrix_nonneg hedges k l
  have hreach := entry_reach_iff_inverse_pos hsolver hnonneg hradius i j
  refine ⟨?_, inverse_nonneg hsolver hnonneg hradius i j, ?_⟩
  · refine (get?_entry _ _ hnames i j).trans ?_
    simp only [hreach]
  · rw [← hreach, Reach.entry_closure]
    have hstep : ∀ k l, (support (weights places)).entry k l = true ↔ Joined names edges k l := by
      intro k l
      rw [support, Square.entry_ofFn, decide_eq_true_eq, hentry, edgeMatrix_pos_iff hedges]
    simp only [hstep]

omit [EquivBEq α] in
/-- A closure over names fails for its radius only. -/
theorem closure_eq_error (hsolver : solver.IsExact)
    (hplaces : edges.mapM (resolve names) = .ok places) {e : ClosureError α ℝ}
    (h : closure solver names edges = .error e) : ∃ radius, e = .divergent radius ∧
      ENNReal.ofReal radius = spectralRadius ℂ ((weights places).toMatrix.map Complex.ofReal) := by
  have hne : names ≠ [] := by
    rintro rfl
    cases h
  rw [closure_eq_ite hne hplaces] at h
  split at h
  · cases h
    exact ⟨_, rfl, (ofReal_radiusOf hsolver (List.length_pos_iff.mpr hne) _).2⟩
  · cases h

/-- **A closure holds the whole series and drops nothing but zeros.** Let linear algebra be exact,
let the names be distinct and let all edges be between names, with weights that are not negative. If
a closure is formed, it is the series of the summed weights, where nothing stands for zero, and two
names have an entry if and only if edges of positive weight lead from the one to the other, which
then is positive. It is refused if and only if the spectral radius is not below one by a margin, and
for no other reason. -/
theorem closure_holds_the_whole_series (hsolver : solver.IsExact) (hnames : DistinctNames names)
    (hedges : ∀ e ∈ edges,
      names.contains e.1 = true ∧ names.contains e.2.1 = true ∧ 0 ≤ e.2.2) :
    (∀ table, closure solver names edges = .ok table →
      IsSeries (edgeMatrix names edges) (readOut names table) ∧
      ∀ i j : Fin names.length,
        ((valueAt? table (names.get i) (names.get j)).isSome = true
          ↔ ReflTransGen (Joined names edges) i j) ∧
        ∀ w, valueAt? table (names.get i) (names.get j) = some w → 0 < w) ∧
    ((∃ e, closure solver names edges = .error e) ↔
      ENNReal.ofReal (1 - 1e-12)
        ≤ spectralRadius ℂ ((edgeMatrix names edges).map Complex.ofReal)) ∧
    ∀ e, closure solver names edges = .error e → ∃ radius, e = .divergent radius ∧
      ENNReal.ofReal radius = spectralRadius ℂ ((edgeMatrix names edges).map Complex.ofReal) := by
  obtain ⟨places, hplaces⟩ : ∃ places, edges.mapM (resolve names) = .ok places :=
    exists_mapM fun e he => exists_resolve (hedges e he).1 (hedges e he).2.1
  have hnonneg : ∀ e ∈ edges, 0 ≤ e.2.2 := fun e he => (hedges e he).2.2
  have hmatrix := toMatrix_weights_eq_edgeMatrix hnames hplaces
  have herror := fun e (h : closure solver names edges = .error e) =>
    closure_eq_error hsolver hplaces h
  have hdivergent := closure_divergent_iff hsolver hplaces
  rw [hmatrix] at herror hdivergent
  refine ⟨fun table htable => ?_, ?_, herror⟩
  · by_cases hne : names = []
    · -- without names there is nothing to say
      subst hne
      have hempty : ∀ {p : Fin ([] : List α).length → Prop}, ∀ i, p i := fun i => i.elim0
      refine ⟨⟨hempty, hempty, fun _ _ _ => hempty, hempty⟩, hempty⟩
    obtain ⟨places', hplaces', hradius, rfl⟩ := closure_eq_ok hnames hne htable
    rw [hplaces] at hplaces'
    cases hplaces'
    have hrows := fun i j => valueAt?_rows hsolver hnames hnonneg hplaces hradius i j
    have hread : ∀ i j, readOut names (rows names (Reach.closure (support (weights places)))
        (solver.inverse (complement (weights places))).entry) i j
          = (solver.inverse (complement (weights places))).entry i j := by
      intro i j
      obtain ⟨hentry, hvalue, _⟩ := hrows i j
      rw [readOut, Matrix.of_apply, hentry]
      split
      · rfl
      · next hzero => exact le_antisymm hvalue (not_lt.mp hzero)
    refine ⟨.of_hasSum (edgeMatrix_nonneg hnonneg) (fun i j => ?_) fun i j => ?_, fun i j => ?_⟩
    · simp only [hread]
      rw [← hmatrix]
      exact (entry_inverse_eq hsolver hradius i j).1
    · rw [hread, ← hmatrix]
      exact hasSum_inverse hsolver hradius i j
    · obtain ⟨hentry, _, hway⟩ := hrows i j
      rw [hentry, ← hway]
      split
      · next hpos =>
        refine ⟨iff_of_true rfl hpos, fun w hw => ?_⟩
        cases hw
        exact hpos
      · next hzero => exact ⟨iff_of_false Bool.false_ne_true hzero, fun w hw => by cases hw⟩
  · rw [← hdivergent]
    constructor
    · rintro ⟨e, he⟩
      obtain ⟨radius, rfl, _⟩ := herror e he
      exact ⟨radius, he⟩
    · rintro ⟨radius, h⟩
      exact ⟨_, h⟩

end Names

/-- Two names with an edge of the first weight each way, and one of the second that leads back to
its own name. -/
def cycleEdges (v w : ℝ) : List (String × String × ℝ) :=
  [("x", "y", v), ("y", "x", v), ("x", "x", w)]

/-- The closure of a cycle that loses weight has entries along it; that of a loop which loses
nothing is refused. -/
theorem cycle_closure_holds_the_whole_series :
    (∃ table, closure realSolver ["x", "y"] (cycleEdges (1 / 2) 0) = .ok table ∧
      IsSeries (edgeMatrix ["x", "y"] (cycleEdges (1 / 2) 0)) (readOut ["x", "y"] table) ∧
      (valueAt? table "x" "y").isSome = true) ∧
    ∃ radius,
      closure realSolver ["x", "y"] (cycleEdges (1 / 2) 1) = .error (.divergent radius) := by
  have hnames : DistinctNames ["x", "y"] := by
    unfold DistinctNames
    decide
  have hedges : ∀ w : ℝ, 0 ≤ w → ∀ e ∈ cycleEdges (1 / 2) w,
      (["x", "y"] : List String).contains e.1 = true ∧
      (["x", "y"] : List String).contains e.2.1 = true ∧ 0 ≤ e.2.2 := by
    intro w hw e he
    simp only [cycleEdges, List.mem_cons, List.not_mem_nil, or_false] at he
    rcases he with rfl | rfl | rfl
    · exact ⟨rfl, rfl, by norm_num⟩
    · exact ⟨rfl, rfl, by norm_num⟩
    · exact ⟨rfl, rfl, hw⟩
  constructor
  · obtain ⟨hformed, hrefused, _⟩ :=
      closure_holds_the_whole_series isExact_realSolver hnames (hedges 0 (le_refl 0))
    have hrow : ∀ i, ∑ j, edgeMatrix ["x", "y"] (cycleEdges (1 / 2) 0) i j ≤ 1 / 2 := by
      intro i
      rw [show ∑ j, edgeMatrix ["x", "y"] (cycleEdges (1 / 2) 0) i j
        = ∑ j : Fin 2, edgeMatrix ["x", "y"] (cycleEdges (1 / 2) 0) i j from rfl, Fin.sum_univ_two]
      match i with
      | ⟨0, _⟩ => simp [edgeMatrix, cycleEdges]
      | ⟨1, _⟩ => simp [edgeMatrix, cycleEdges]
    have hradius := spectralRadius_le_of_sum_le
      (edgeMatrix_nonneg fun e he => (hedges 0 (le_refl 0) e he).2.2) hrow
    cases hclosure : closure realSolver ["x", "y"] (cycleEdges (1 / 2) 0) with
    | error e =>
      have hlarge := (hrefused.mp ⟨e, hclosure⟩).trans hradius
      exact absurd hlarge
        (not_le.mpr ((ENNReal.ofReal_lt_ofReal_iff (by norm_num)).mpr (by norm_num)))
    | ok table =>
      obtain ⟨hseries, hentries⟩ := hformed table hclosure
      refine ⟨table, rfl, hseries, ((hentries ⟨0, by decide⟩ ⟨1, by decide⟩).1).mpr (.single ?_)⟩
      exact ⟨("x", "y", 1 / 2), List.mem_cons_self, rfl, rfl, by norm_num⟩
  · obtain ⟨_, hrefused, hreason⟩ :=
      closure_holds_the_whole_series isExact_realSolver hnames (hedges 1 zero_le_one)
    have hdiag : edgeMatrix ["x", "y"] (cycleEdges (1 / 2) 1) ⟨0, by decide⟩ ⟨0, by decide⟩
        = 1 := by
      simp [edgeMatrix, cycleEdges]
    have hnonneg : ∀ i j, 0 ≤ edgeMatrix ["x", "y"] (cycleEdges (1 / 2) 1) i j :=
      edgeMatrix_nonneg fun e he => (hedges 1 zero_le_one e he).2.2
    have hradius := ofReal_diag_le_spectralRadius hnonneg ⟨0, by decide⟩
    rw [hdiag] at hradius
    obtain ⟨e, he⟩ := hrefused.mpr ((ENNReal.ofReal_le_ofReal (by norm_num)).trans hradius)
    obtain ⟨radius, rfl, _⟩ := hreason e he
    exact ⟨radius, he⟩

end StochasticGrammar.Star
