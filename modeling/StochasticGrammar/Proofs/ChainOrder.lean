import Mathlib.Data.List.NodupEquivFin
import Mathlib.LinearAlgebra.Matrix.Reindex
import StochasticGrammar.Proofs.Series

/-!
# Chains do not depend on the order of names

The names of a closure number the rows of its matrix, in the order in which they come. Another order
moves rows and columns alike, which changes neither the radius nor what stands between two names in
the inverse; so the same closures are formed, and they hold the same numbers.

> `Renumbered.radiusOf_eq`: a matrix that is numbered in another way has the same radius.

> `exists_closure_of_perm`: names and edges may come in any order.
-/

namespace StochasticGrammar.Star

/-! ## Another numbering -/

section Numbering

variable {n n' : Nat} {m : Square n ℝ} {m' : Square n' ℝ} {place : Fin n' ≃ Fin n}

/-- The second matrix is the first one with its rows and columns numbered in another way. -/
def Renumbered (place : Fin n' ≃ Fin n) (m : Square n ℝ) (m' : Square n' ℝ) : Prop :=
  ∀ i j, m'.entry i j = m.entry (place i) (place j)

theorem Renumbered.toMatrix_eq (h : Renumbered place m m') :
    m'.toMatrix = Matrix.reindexAlgEquiv ℝ ℝ place.symm m.toMatrix := by
  ext i j
  exact h i j

theorem Renumbered.pow_eq (h : Renumbered place m m') (k : ℕ) (i j : Fin n') :
    (m'.toMatrix ^ k) i j = (m.toMatrix ^ k) (place i) (place j) := by
  rw [h.toMatrix_eq, ← map_pow]
  rfl

theorem Renumbered.spectrum_eq (h : Renumbered place m m') :
    spectrum ℂ (m'.toMatrix.map Complex.ofReal) = spectrum ℂ (m.toMatrix.map Complex.ofReal) := by
  have hmatrix : m'.toMatrix.map Complex.ofReal
      = Matrix.reindexAlgEquiv ℂ ℂ place.symm (m.toMatrix.map Complex.ofReal) := by
    ext i j
    exact congrArg Complex.ofReal (h i j)
  rw [hmatrix, AlgEquiv.spectrum_eq]

variable {solver : Solver ℝ}

theorem all_toList_iff {n : Nat} {m : Square n ℝ} :
    m.toList.all (fun p => decide (p = 0)) = true ↔ ∀ i j, m.entry i j = 0 := by
  simp [Square.toList]

/-- **A matrix that is numbered in another way has the same radius.** -/
theorem Renumbered.radiusOf_eq (h : Renumbered place m m') (hsolver : solver.IsExact) (hn : 0 < n) :
    radiusOf solver m' = radiusOf solver m := by
  have hn' : 0 < n' := (place.symm ⟨0, hn⟩).pos
  have hzero : (m'.toList.all fun p => decide (p = 0)) = m.toList.all fun p => decide (p = 0) := by
    rw [Bool.eq_iff_iff, all_toList_iff, all_toList_iff]
    constructor
    · intro hall i j
      rw [← place.apply_symm_apply i, ← place.apply_symm_apply j, ← h]
      exact hall _ _
    · intro hall i j
      rw [h]
      exact hall _ _
  have hradius := hsolver.radius m' hn'
  rw [h.spectrum_eq] at hradius
  unfold radiusOf
  rw [hzero, hradius.unique (hsolver.radius m hn)]

/-- What stands between two places of the series stays there. -/
theorem Renumbered.inverse_eq (h : Renumbered place m m') (hsolver : solver.IsExact)
    (hradius : ¬ 1 - 1e-12 ≤ radiusOf solver m) (hradius' : ¬ 1 - 1e-12 ≤ radiusOf solver m')
    (i j : Fin n') :
    (solver.inverse (complement m')).entry i j
      = (solver.inverse (complement m)).entry (place i) (place j) := by
  have hsum := hasSum_inverse hsolver hradius' i j
  simp only [h.pow_eq] at hsum
  exact hsum.unique (hasSum_inverse hsolver hradius (place i) (place j))

end Numbering

/-! ## Names in another order -/

section Names

variable {α : Type} [DecidableEq α] {names names' : List α}

/-- Where a name of the one list stands in the other. -/
noncomputable def placeOf (hperm : names.Perm names') (h : names.Nodup) :
    Fin names'.length ≃ Fin names.length :=
  (List.Nodup.getEquiv names' (hperm.nodup_iff.mp h)).trans
    ((Equiv.subtypeEquivRight fun _ => hperm.mem_iff.symm).trans (List.Nodup.getEquiv names h).symm)

theorem get_placeOf (hperm : names.Perm names') (h : names.Nodup) (i : Fin names'.length) :
    names.get (placeOf hperm h i) = names'.get i := by
  have hget := (List.Nodup.getEquiv names h).apply_symm_apply
    ⟨names'.get i, hperm.mem_iff.mpr (List.get_mem names' i)⟩
  exact congrArg Subtype.val hget

variable [BEq α] [EquivBEq α]

omit [DecidableEq α] in
theorem DistinctNames.nodup (h : DistinctNames names) : names.Nodup := by
  refine List.Pairwise.imp (fun {a b} hne hab => ?_) h
  rw [hab] at hne
  exact hne BEq.rfl

omit [DecidableEq α] in
/-- An edge between names is resolved. -/
theorem exists_resolve {e : α × α × ℝ} (hsource : names.contains e.1 = true)
    (htarget : names.contains e.2.1 = true) : ∃ place, resolve names e = .ok place := by
  have hlast : ∀ {x}, names.contains x = true → ∃ i, lastIndex? names x = some i := by
    intro x hx
    obtain ⟨y, hy, hxy⟩ := List.contains_iff_exists_mem_beq.mp hx
    obtain ⟨i, rfl⟩ := List.get_of_mem hy
    refine Option.isSome_iff_exists.mp ?_
    rw [lastIndex?, List.find?_isSome]
    exact ⟨i, List.mem_reverse.mpr (List.mem_finRange i), BEq.symm hxy⟩
  obtain ⟨i, hi⟩ := hlast hsource
  obtain ⟨j, hj⟩ := hlast htarget
  refine ⟨(i, j, e.2.2), ?_⟩
  unfold resolve
  rw [hi, hj]

variable {solver : Solver ℝ} {edges edges' : List (α × α × ℝ)}

omit [DecidableEq α] in
/-- A closure is formed if all edges are between names and the radius is below one. -/
theorem closure_eq_rows (hnames : DistinctNames names) (hne : names ≠ [])
    {places : List (Fin names.length × Fin names.length × ℝ)}
    (hplaces : edges.mapM (resolve names) = .ok places)
    (hradius : ¬ 1 - 1e-12 ≤ radiusOf solver (weights places)) :
    closure solver names edges = .ok (rows names (Reach.closure (support (weights places)))
      (solver.inverse (complement (weights places))).entry) := by
  rw [closure_eq_ite hne hplaces, if_neg hradius, tabulate_eq hnames]

variable {places : List (Fin names.length × Fin names.length × ℝ)}
  {places' : List (Fin names'.length × Fin names'.length × ℝ)}

/-- The weights between names in another order. -/
theorem renumbered_weights (hperm : names.Perm names') (hnames : DistinctNames names)
    (hplain : ∀ x ∈ names, ∀ b, (x == b) = true → x = b) (hedges : edges.Perm edges')
    (hplaces : edges.mapM (resolve names) = .ok places)
    (hplaces' : edges'.mapM (resolve names') = .ok places') :
    Renumbered (placeOf hperm hnames.nodup) (weights places) (weights places') := by
  have hinjective : Function.Injective names.get := List.nodup_iff_injective_get.mp hnames.nodup
  have hinjective' : Function.Injective names'.get :=
    List.nodup_iff_injective_get.mp (hperm.nodup_iff.mp hnames.nodup)
  intro i j
  rw [entry_weights (fun i b => hplain _ (List.get_mem names i) b)
    (fun hij => hinjective hij) hplaces,
    entry_weights (fun i b => hplain _ (hperm.mem_iff.mpr (List.get_mem names' i)) b)
      (fun hij => hinjective' hij) hplaces', get_placeOf, get_placeOf]
  exact ((hedges.map _).sum_eq).symm

omit [DecidableEq α] in
/-- An entry of a closure: what is not zero there. -/
theorem get?_closure (hsolver : solver.IsExact) (hnames : DistinctNames names)
    (hpos : ∀ e ∈ edges, 0 < e.2.2) (hplaces : edges.mapM (resolve names) = .ok places)
    (hradius : ¬ 1 - 1e-12 ≤ radiusOf solver (weights places)) (i j : Fin names.length) :
    Table.get? ((Table.get? (rows names (Reach.closure (support (weights places)))
        (solver.inverse (complement (weights places))).entry) (names.get i)).getD []) (names.get j)
      = if 0 < (solver.inverse (complement (weights places))).entry i j then
          some ((solver.inverse (complement (weights places))).entry i j) else none := by
  refine (get?_entry _ _ hnames i j).trans ?_
  simp only [entry_reach_iff_inverse_pos hsolver (weights_nonneg hpos hplaces) hradius i j]

/-- **Names and edges may come in any order.** -/
theorem exists_closure_of_perm (hsolver : solver.IsExact) (hperm : names.Perm names')
    (hnames : DistinctNames names) (hplain : ∀ x ∈ names, ∀ b, (x == b) = true → x = b)
    (hedges : edges.Perm edges') (hpos : ∀ e ∈ edges, 0 < e.2.2) {table : Table α (Table α ℝ)}
    (h : closure solver names edges = .ok table) :
    ∃ table', closure solver names' edges' = .ok table' ∧ ∀ x ∈ names, ∀ y ∈ names,
      Table.get? ((Table.get? table' x).getD []) y
        = Table.get? ((Table.get? table x).getD []) y := by
  by_cases hne : names = []
  · subst hne
    rw [List.nil_perm.mp hperm]
    exact ⟨[], rfl, fun x hx => absurd hx List.not_mem_nil⟩
  obtain ⟨places, hplaces, hradius, rfl⟩ := closure_eq_ok hnames hne h
  have hnames' : DistinctNames names' :=
    hperm.pairwise hnames fun {a b} hab hba => hab (BEq.symm hba)
  have hne' : names' ≠ [] := fun h => hne (List.perm_nil.mp (h ▸ hperm))
  have hends : ∀ e ∈ edges, e.1 ∈ names ∧ e.2.1 ∈ names := by
    intro e he
    obtain ⟨place, _, hplace⟩ := exists_mem_of_mapM hplaces he
    obtain ⟨hsource, htarget, _⟩ := resolve_eq_ok hplace
    rw [← hplain _ (List.getElem_mem _) _ hsource, ← hplain _ (List.getElem_mem _) _ htarget]
    exact ⟨List.getElem_mem _, List.getElem_mem _⟩
  -- a closure was formed, so all edges are between names, and still are in another order
  obtain ⟨places', hplaces'⟩ : ∃ places', edges'.mapM (resolve names') = .ok places' := by
    apply exists_mapM
    intro e he
    obtain ⟨hsource, htarget⟩ := hends e (hedges.mem_iff.mpr he)
    exact exists_resolve
      (List.contains_iff_exists_mem_beq.mpr ⟨_, hperm.mem_iff.mp hsource, BEq.rfl⟩)
      (List.contains_iff_exists_mem_beq.mpr ⟨_, hperm.mem_iff.mp htarget, BEq.rfl⟩)
  have hplace := renumbered_weights hperm hnames hplain hedges hplaces hplaces'
  have hradius' : ¬ 1 - 1e-12 ≤ radiusOf solver (weights places') := by
    rwa [hplace.radiusOf_eq hsolver (List.length_pos_iff.mpr hne)]
  refine ⟨_, closure_eq_rows hnames' hne' hplaces' hradius', fun x hx y hy => ?_⟩
  obtain ⟨i, rfl⟩ := List.get_of_mem (hperm.mem_iff.mp hx)
  obtain ⟨j, rfl⟩ := List.get_of_mem (hperm.mem_iff.mp hy)
  have hentry := get?_closure hsolver hnames hpos hplaces hradius (placeOf hperm hnames.nodup i)
    (placeOf hperm hnames.nodup j)
  have hentry' := get?_closure hsolver hnames' (fun e he => hpos e (hedges.mem_iff.mpr he)) hplaces'
    hradius' i j
  rw [hplace.inverse_eq hsolver hradius hradius'] at hentry'
  rw [get_placeOf hperm, get_placeOf hperm] at hentry
  exact hentry'.trans hentry.symm

end Names

end StochasticGrammar.Star
