import StochasticGrammar.Proofs.Bounded
import StochasticGrammar.Proofs.Corners

/-!
# What the edges of left corners count

Chains of left corners are summed over the rules that the parser uses. A rule with symbols that can
be empty is used in several ways, and the ways that leave out symbols behind a left corner share
that corner. So an edge counts the corner with the symbols behind it both as they are and left out,
as if each way brought a probability of its own: behind a corner, every symbol counts for one and
for how probable it is to be empty.

> `sum_ways_first`: the ways to use a rule, by the symbol that they begin with.

> `Compiled.toMatrix_weights`: the matrix that chains of left corners are summed over.
-/

namespace StochasticGrammar

open scoped Classical ENNReal

/-! ## Left corners of a rule -/

/-- The left corners of a right side that are a category, each weighted by the symbols before it
being empty and by something for the symbols behind it. -/
noncomputable def cornerShare (empty behind : Category → ℝ) (y : Category)
    (rhs : List Category) : ℝ :=
  ∑ m ∈ Finset.range rhs.length, if rhs[m]? = some y then
    ((rhs.take m).map empty).prod * ((rhs.drop (m + 1)).map behind).prod else 0

theorem cornerShare_nil (empty behind : Category → ℝ) (y : Category) :
    cornerShare empty behind y [] = 0 := rfl

/-- The first symbol is a left corner; for a later one it has to be empty. -/
theorem cornerShare_cons (empty behind : Category → ℝ) (y c : Category) (rhs : List Category) :
    cornerShare empty behind y (c :: rhs)
      = (if c = y then (rhs.map behind).prod else 0)
      + empty c * cornerShare empty behind y rhs := by
  unfold cornerShare
  rw [List.length_cons, Finset.sum_range_succ', add_comm, Finset.mul_sum]
  congr 1
  · simp
  · apply Finset.sum_congr rfl
    intro m _
    rw [List.getElem?_cons_succ, List.take_succ_cons, List.drop_succ_cons, List.map_cons,
      List.prod_cons, mul_ite, mul_zero, mul_assoc]

namespace Omission

/-- The symbol that some places begin with when others are left out. -/
noncomputable def firstOf (places : List (Category × Nat)) (omitted : Finset (Category × Nat)) :
    Option Category :=
  ((places.filter fun place => place ∉ omitted).map Prod.fst)[0]?

/-- **The choices of what to leave out, by what is then first.** The places before it are left out,
and those behind it are left out or not. -/
theorem sum_powerset_firstOf (empty : Category → ℝ) (y : Category) {places : List (Category × Nat)}
    (hnodup : places.Nodup) :
    ∑ t ∈ places.toFinset.powerset,
        (if firstOf places t = some y then ∏ place ∈ t, empty place.1 else 0)
      = cornerShare empty (fun c => 1 + empty c) y (places.map Prod.fst) := by
  induction places with
  | nil => simp [firstOf, cornerShare]
  | cons p places ih =>
    obtain ⟨hp, hplaces⟩ := List.nodup_cons.mp hnodup
    have hp : p ∉ places.toFinset := fun h => hp (List.mem_toFinset.mp h)
    have hsub : ∀ {t}, t ∈ places.toFinset.powerset → p ∉ t :=
      fun ht h => hp (Finset.mem_powerset.mp ht h)
    rw [List.toFinset_cons, Finset.sum_powerset_insert hp, List.map_cons, cornerShare_cons,
      ← ih hplaces]
    congr 1
    · -- the first place stays
      have hfirst : ∀ t ∈ places.toFinset.powerset,
          (if firstOf (p :: places) t = some y then ∏ place ∈ t, empty place.1 else 0)
            = if p.1 = y then ∏ place ∈ t, empty place.1 else 0 := by
        intro t ht
        simp [firstOf, hsub ht]
      rw [Finset.sum_congr rfl hfirst]
      split
      · rw [← Finset.prod_one_add, List.prod_toFinset _ hplaces, List.map_map]
        rfl
      · exact Finset.sum_const_zero
    · -- the first place is left out
      rw [Finset.mul_sum]
      apply Finset.sum_congr rfl
      intro t ht
      have hrest : firstOf (p :: places) (insert p t) = firstOf places t := by
        unfold firstOf
        rw [filter_insert fun hmem => hp (List.mem_toFinset.mpr hmem)]
      rw [hrest, Finset.prod_insert (hsub ht), mul_ite, mul_zero]

/-- **What the ways to use a rule make of its left corners**: every one that can be reached over
empty symbols, with those behind it as they are and left out. -/
theorem sum_ways_first (nullable rhs : List Category) {empty : Category → ℝ}
    (hempty : ∀ c, ¬ nullable.contains c = true → empty c = 0) (y : Category) :
    ∑ o ∈ (ways nullable rhs).toFinset, (if (remaining rhs (o.map (·.2)))[0]? = some y then
        (o.map fun place => empty place.1).prod else 0)
      = cornerShare empty (fun c => 1 + empty c) y rhs := by
  have hnodup := nodup_zipIdx rhs
  have hsublist : ∀ {o}, o ∈ (ways nullable rhs).toFinset → o.Sublist rhs.zipIdx :=
    fun ho => (sublist_of_mem_ways (List.mem_toFinset.mp ho)).1
  let share : Finset (Category × Nat) → ℝ := fun t =>
    if firstOf rhs.zipIdx t = some y then ∏ place ∈ t, empty place.1 else 0
  calc ∑ o ∈ (ways nullable rhs).toFinset, (if (remaining rhs (o.map (·.2)))[0]? = some y then
          (o.map fun place => empty place.1).prod else 0)
      = ∑ o ∈ (ways nullable rhs).toFinset, share o.toFinset := by
        apply Finset.sum_congr rfl
        intro o ho
        rw [remaining_eq (hsublist ho), ← List.prod_toFinset _ (hnodup.sublist (hsublist ho))]
        rfl
    _ = ∑ t ∈ rhs.zipIdx.toFinset.powerset, share t := by
        -- what is no way leaves out something that is never empty, or everything
        refine sum_ways (fun t ht => ?_) (by simp [share, firstOf])
        obtain ⟨place, hplace, hno⟩ := ht
        have hprod : ∏ place ∈ t, empty place.1 = 0 := Finset.prod_eq_zero hplace (hempty _ hno)
        simp only [share, hprod, ite_self]
    _ = cornerShare empty (fun c => 1 + empty c) y rhs := by
        rw [sum_powerset_firstOf empty y hnodup, List.zipIdx_map_fst]

end Omission

/-! ## Left corners of a grammar -/

namespace Grammar

variable {W : Type}

/-- The left corners of a category that are another one, over the rules as they were given. -/
noncomputable def cornerWeight (G : Grammar ℝ W) (behind : Category → ℝ) (x y : Category) : ℝ :=
  ((G.sourceRulesOf x).map fun r =>
    r.probability * cornerShare G.emptyProbability behind y r.rhs).sum

/-- The matrix of left corners between the categories of a grammar. -/
noncomputable def cornerMatrix (G : Grammar ℝ W) (behind : Category → ℝ) :
    Matrix (Fin G.names.length) (Fin G.names.length) ℝ :=
  Matrix.of fun i j => G.cornerWeight behind (G.names.get i) (G.names.get j)

/-- The series of left corners is taken not to converge. -/
def CornersDiverge (G : Grammar ℝ W) (behind : Category → ℝ) : Prop :=
  ENNReal.ofReal (1 - 1e-12) ≤ spectralRadius ℂ ((G.cornerMatrix behind).map Complex.ofReal)

variable [DecidableEq W] {solver : Solver ℝ} {G : Grammar ℝ W}

/-- **What an edge of left corners counts.** -/
theorem Compiled.sum_leftEdges_eq (hG : G.Compiled solver) (x : Category) {y : Category}
    (hy : y ∈ G.names) :
    ((leftEdges G.names G.compiledRules).map fun e => if e.1 = x ∧ e.2.1 = y then e.2.2 else 0).sum
      = G.cornerWeight (fun c => 1 + G.emptyProbability c) x y := by
  let begun : Rule ℝ W → ℝ := fun r => if r.rhs[0]? = some y then r.probability else 0
  have hbegun : ∀ r, r.probability = 0 → begun r = 0 := by
    intro r hzero
    simp only [begun, hzero, ite_self]
  have hempty : ∀ c, ¬ G.nullable.contains c = true → G.emptyProbability c = 0 :=
    fun c hc => hG.emptyProbability_of_not_nullable hc
  rw [sum_leftEdges (hG.isNonterminal_iff.mpr hy), hG.sum_compiledRules]
  simp only [ite_and]
  refine (hG.sum_usedRules_eq x hbegun).trans ?_
  rw [cornerWeight, ← List.sum_toFinset _ (hG.nodup_sourceRulesOf x)]
  apply Finset.sum_congr rfl
  intro r _
  rw [← Omission.sum_ways_first G.nullable r.rhs hempty y, Finset.mul_sum]
  apply Finset.sum_congr rfl
  intro o _
  simp only [begun, probability_usedAs, rhs_usedAs, mul_ite, mul_zero]

/-- The matrix that a closure of left corners is formed over. -/
theorem Compiled.toMatrix_weights (hG : G.Compiled solver)
    {places : List (Fin G.names.length × Fin G.names.length × ℝ)}
    (hplaces : (leftEdges G.names G.compiledRules).mapM (Star.resolve G.names) = .ok places) :
    (Star.weights places).toMatrix = G.cornerMatrix fun c => 1 + G.emptyProbability c := by
  have hindex : ∀ {a b : Fin G.names.length}, G.names[a] = G.names[b] → a = b :=
    fun heq => hG.names.distinct.index_eq (by rw [heq]; exact BEq.rfl)
  ext i j
  exact (Star.entry_weights hG.name_eq_of_beq hindex hplaces i j).trans
    (hG.sum_leftEdges_eq _ (List.get_mem _ _))

/-! ## What stands behind left corners -/

/-- No symbol that can be empty stands behind a left corner. -/
def KeepsBehind (G : Grammar ℝ W) : Prop :=
  ∀ r ∈ G.rules, ∀ m y, r.rhs[m]? = some y → G.isNonterminal y = true →
    (∀ c ∈ r.rhs.take m, G.isNullable c = true) → ∀ c ∈ r.rhs.drop (m + 1), G.isNullable c = false

/-- If nothing can be empty there, an edge counts a left corner once. -/
theorem Compiled.cornerMatrix_eq (hG : G.Compiled solver) (h : G.KeepsBehind) :
    G.cornerMatrix (fun c => 1 + G.emptyProbability c) = G.cornerMatrix fun _ => 1 := by
  have hempty : ∀ c, G.isNullable c = false → G.emptyProbability c = 0 := fun c hc =>
    hG.emptyProbability_of_not_nullable (by rw [hc]; exact Bool.false_ne_true)
  ext i j
  show G.cornerWeight _ _ _ = G.cornerWeight _ _ _
  unfold cornerWeight
  refine congrArg List.sum (List.map_congr_left fun r hr =>
    congrArg _ (Finset.sum_congr rfl fun m _ => ?_))
  have hr := (hG.sourceRulesOf.mp hr).1
  have hname := hG.isNonterminal_iff.mpr (List.get_mem G.names j)
  split
  · rename_i hcorner
    by_cases hnull : ∀ c ∈ r.rhs.take m, G.isNullable c = true
    · refine congrArg _ (congrArg List.prod (List.map_congr_left fun c hc => ?_))
      rw [hempty c (h r hr m _ hcorner hname hnull c hc), add_zero]
    · -- a symbol before the corner is never empty
      obtain ⟨c, hc, hno⟩ : ∃ c ∈ r.rhs.take m, G.isNullable c = false := by
        simpa only [not_forall, exists_prop, Bool.not_eq_true] using hnull
      have hzero : ((r.rhs.take m).map G.emptyProbability).prod = 0 :=
        List.prod_eq_zero (List.mem_map.mpr ⟨c, hc, hempty c hno⟩)
      rw [hzero, zero_mul, zero_mul]
  · rfl

/-- An edge counts no less for a left corner than the corner has. -/
theorem Compiled.cornerMatrix_le (hG : G.Compiled solver) {behind behind' : Category → ℝ}
    (h : ∀ c, 0 ≤ behind c ∧ behind c ≤ behind' c) (i j : Fin G.names.length) :
    0 ≤ G.cornerMatrix behind i j ∧ G.cornerMatrix behind i j ≤ G.cornerMatrix behind' i j := by
  have hempty : ∀ symbols : List Category, 0 ≤ (symbols.map G.emptyProbability).prod := by
    intro symbols
    apply List.prod_nonneg
    intro w hw
    obtain ⟨c, _, rfl⟩ := List.mem_map.mp hw
    exact hG.emptyProbability_nonneg c
  have hbehind : ∀ symbols : List Category, 0 ≤ (symbols.map behind).prod ∧
      (symbols.map behind).prod ≤ (symbols.map behind').prod := by
    intro symbols
    refine ⟨List.prod_nonneg fun w hw => ?_, List.prod_map_le_prod_map₀ _ _ (fun c _ => (h c).1)
      fun c _ => (h c).2⟩
    obtain ⟨c, _, rfl⟩ := List.mem_map.mp hw
    exact (h c).1
  have hshare : ∀ y rhs, 0 ≤ cornerShare G.emptyProbability behind y rhs ∧
      cornerShare G.emptyProbability behind y rhs
        ≤ cornerShare G.emptyProbability behind' y rhs := by
    intro y rhs
    refine ⟨Finset.sum_nonneg fun m _ => ?_, Finset.sum_le_sum fun m _ => ?_⟩ <;> split
    · exact mul_nonneg (hempty _) (hbehind _).1
    · exact le_refl 0
    · exact mul_le_mul_of_nonneg_left (hbehind _).2 (hempty _)
    · exact le_refl 0
  have hprobability : ∀ r ∈ G.sourceRulesOf (G.names.get i), 0 ≤ r.probability := fun r hr =>
    (hG.probability_mem_unit (hG.sourceRulesOf.mp hr).1).1.le
  refine ⟨List.sum_nonneg fun w hw => ?_, List.sum_le_sum fun r hr => ?_⟩
  · obtain ⟨r, hr, rfl⟩ := List.mem_map.mp hw
    exact mul_nonneg (hprobability r hr) (hshare _ _).1
  · exact mul_le_mul_of_nonneg_left (hshare _ _).2 (hprobability r hr)

end Grammar

end StochasticGrammar
