import StochasticGrammar.Proofs.Exact
import StochasticGrammar.Proofs.Saturation
import StochasticGrammar.Proofs.Sums

/-!
# Scores as numbers

In exact arithmetic the scores of a chart are numbers that add up. This file reads the parts of a
column as numbers: what a state that is not there counts for is zero, so that sums may run over all
rules and positions instead of the cells that happen to be there.

> `sum_unitSources`, `sum_leftCornersOf`: what the tables of chains contribute, over all names.

> `Shaped.sum_cells`: what the cells of a column contribute, over their states.
-/

namespace StochasticGrammar

variable {K W : Type} [Field K] [LinearOrder K]

/-! ## Additive scores -/

/-- Scores that stand for numbers and add up as these do. -/
structure ScoreAlgebra.IsAdditive (A : ScoreAlgebra K W) (value : W → K) : Prop
    extends A.IsExact value where
  zero : value A.zero = 0
  add : ∀ a b, value (A.add a b) = value a + value b
  toProbability : ∀ w, A.toProbability w = some (value w)

/-- Plain probabilities add up. -/
theorem isAdditive_linearScores : (linearScores K).IsAdditive id where
  toIsExact := isExact_linearScores
  zero := rfl
  add _ _ := rfl
  toProbability _ := rfl

namespace ScoreAlgebra.IsAdditive

variable {A : ScoreAlgebra K W} {value : W → K}

theorem value_sum (h : A.IsAdditive value) (ws : List W) :
    value (A.sum ws) = (ws.map value).sum := by
  have hfold : ∀ start, value (ws.foldl A.add start) = value start + (ws.map value).sum := by
    induction ws with
    | nil =>
      intro start
      simp
    | cons w ws ih =>
      intro start
      rw [List.foldl_cons, ih, h.add, List.map_cons, List.sum_cons, add_assoc]
  rw [sum, hfold, h.zero, zero_add]

/-- What is added to an empty cell. -/
theorem value_zero_add (h : A.IsAdditive value) (w : W) : value (A.add A.zero w) = value w := by
  rw [h.add, h.zero, zero_add]

theorem value_times (h : A.IsAdditive value) (a b c : W) :
    value (A.times [a, b, c]) = value a * value b * value c := by
  simp [times, h.mul, h.one]

end ScoreAlgebra.IsAdditive

variable [DecidableEq W] {solver : Solver K} {G : Grammar K W}

/-! ## Tables of chains -/

namespace Grammar
namespace Compiled

/-- A table of chains has no entry for what is no name. -/
theorem entry_of_not_mem (hG : G.Compiled solver) {present : Square G.names.length Bool}
    {chain : Fin G.names.length → Fin G.names.length → W} {x y : Category}
    (h : x ∉ G.names ∨ y ∉ G.names) :
    Table.get? ((Table.get? (Star.rows G.names present chain) x).getD []) y = none := by
  cases hrow : Table.get? (Star.rows G.names present chain) x with
  | none => rfl
  | some row =>
    obtain ⟨x', hmem, hx⟩ := Table.mem_of_get? hrow
    obtain ⟨i, _, heq⟩ := List.mem_map.mp hmem
    cases heq
    have hxi := hG.name_eq_of_beq i x (BEq.symm hx)
    have hy : y ∉ G.names := h.resolve_left fun hno => hno (hxi ▸ name_mem G i)
    rw [Option.getD_some, Table.get?_eq_none_iff]
    rintro ⟨y', w⟩ hentry hyy
    obtain ⟨j, _, heq⟩ := List.mem_map.mp hentry
    cases heq
    exact hy (hG.name_eq_of_beq j y (BEq.symm hyy) ▸ name_mem G j)

/-- No chain of unit rules leads from what is no name, or to it. -/
theorem unitScore_of_not_mem [IsStrictOrderedRing K] (hG : G.Compiled solver) {x y : Category}
    (h : x ∉ G.names ∨ y ∉ G.names) : G.unitScore x y = G.algebra.zero := by
  obtain ⟨present, chain, htable, _⟩ := hG.isChainTable_unitChains
  unfold unitScore
  rw [htable, hG.entry_of_not_mem h]
  rfl

/-- No chain of left corners leads from what is no name, or to it. -/
theorem leftCornerScore_of_not_mem [IsStrictOrderedRing K] (hG : G.Compiled solver)
    {x y : Category} (h : x ∉ G.names ∨ y ∉ G.names) :
    G.leftCornerScore x y = G.algebra.zero := by
  obtain ⟨present, chain, htable, _⟩ := hG.isChainTable_leftCorners
  unfold leftCornerScore leftCornersOf
  rw [htable, hG.entry_of_not_mem h]
  rfl

variable {value : W → K}

/-- **What the left corners of a name contribute**, over all names. -/
theorem sum_leftCornersOf [IsStrictOrderedRing K] (hG : G.Compiled solver)
    (hvalue : G.algebra.IsAdditive value) {z : Category} (hz : z ∈ G.names) (f : Category → K) :
    ((G.leftCornersOf z).map fun corner => value corner.2 * f corner.1).sum
      = ∑ x ∈ G.names.toFinset, value (G.leftCornerScore z x) * f x := by
  obtain ⟨present, chain, htable, _⟩ := hG.isChainTable_leftCorners
  obtain ⟨i, rfl⟩ := exists_name hz
  rw [hG.leftCornersOf_rows htable, List.map_map, sum_places, ← hG.sum_names]
  refine Finset.sum_congr rfl fun j _ => ?_
  rw [hG.leftCornerScore_rows htable]
  split
  · rfl
  · rw [hvalue.zero, zero_mul]

/-- **What the unit sources of a name contribute**, over all names. -/
theorem sum_unitSources [IsStrictOrderedRing K] (hG : G.Compiled solver)
    (hvalue : G.algebra.IsAdditive value) {y : Category} (hy : y ∈ G.names) (f : Category → K) :
    ((G.unitSources y).map fun source => value source.2 * f source.1).sum
      = ∑ x ∈ G.names.toFinset, value (G.unitScore x y) * f x := by
  obtain ⟨present, chain, htable, _⟩ := hG.isChainTable_unitChains
  obtain ⟨j, rfl⟩ := exists_name hy
  rw [hG.unitSources_rows htable, List.map_map, sum_places, ← hG.sum_names]
  refine Finset.sum_congr rfl fun i _ => ?_
  rw [hG.unitScore_rows htable]
  split
  · rfl
  · rw [hvalue.zero, zero_mul]

end Compiled
end Grammar

/-! ## Columns -/

namespace Parser

variable {goal : Category} {value : W → K} {part : Cell K W → W}

/-- What a part of the cell of a state amounts to. -/
def amount (A : ScoreAlgebra K W) (value : W → K) (part : Cell K W → W) (col : Column K W)
    (s : State K W) : K :=
  value (part (col.cell A s))

/-- A part of a cell that is summed over the ways to reach its state, such as its forward score and
its inner score. -/
structure IsScore (A : ScoreAlgebra K W) (part : Cell K W → W) : Prop where
  fresh : ∀ s, part (.fresh A s) = A.zero
  shifted : ∀ k token c, part (shifted A k token c) = A.add A.zero (part c)
  receive : ∀ c m, part (Move.receive A c m) = A.add (part c) (A.mul (part m.cell) m.factor)
  core : ∀ {c c'}, c.forward = c'.forward → c.inner = c'.inner → part c = part c'

omit [Field K] [LinearOrder K] [DecidableEq W] in
theorem isScore_forward (A : ScoreAlgebra K W) : IsScore A Cell.forward :=
  ⟨fun _ => rfl, fun _ _ _ => rfl, fun _ _ => rfl, fun h _ => h⟩

omit [Field K] [LinearOrder K] [DecidableEq W] in
theorem isScore_inner (A : ScoreAlgebra K W) : IsScore A Cell.inner :=
  ⟨fun _ => rfl, fun _ _ _ => rfl, fun _ _ => rfl, fun _ h => h⟩

/-- What is not there amounts to nothing. -/
theorem amount_of_not_mem (hG : G.Compiled solver) (hvalue : G.algebra.IsAdditive value)
    (hpart : IsScore G.algebra part) {k : Nat} {col : Column K W} (hcol : Shaped G goal k col)
    {s : State K W} (hs : ChartRule G goal s.rule) (hmem : s ∉ col.states) :
    amount G.algebra value part col s = 0 := by
  have hno : col.contains s = false := by
    rw [Bool.eq_false_iff, Ne, hcol.contains_iff_mem_states hG hs]
    exact hmem
  unfold amount Column.cell
  rw [Column.find?_eq_none_of_not_contains hno, Option.getD_none, hpart.fresh, hvalue.zero]

theorem amount_of_mem {k : Nat} {col : Column K W} (hcol : Shaped G goal k col) {c : Cell K W}
    (hc : c ∈ col) : amount G.algebra value part col c.state = value (part c) := by
  unfold amount
  rw [Column.cell_of_mem G.algebra hcol.distinct hc]

/-- Columns whose cells have the same scores. -/
theorem amount_of_core_eq (hG : G.Compiled solver) (hvalue : G.algebra.IsAdditive value)
    (hpart : IsScore G.algebra part) {k : Nat} {col col' : Column K W}
    (h : col.map Cell.core = col'.map Cell.core) (hcol : Shaped G goal k col) {s : State K W}
    (hs : ChartRule G goal s.rule) :
    amount G.algebra value part col s = amount G.algebra value part col' s := by
  have hcol' := shaped_of_core_eq h hcol
  by_cases hmem : s ∈ col.states
  · obtain ⟨c, hc, rfl⟩ := mem_states.mp hmem
    obtain ⟨c', hc', hstate, hforward, hinner⟩ := exists_mem_of_core_eq h hc
    rw [amount_of_mem hcol hc, ← hstate, amount_of_mem hcol' hc', hpart.core hforward hinner]
  · rw [amount_of_not_mem hG hvalue hpart hcol hs hmem]
    rw [states_eq_of_core_eq h] at hmem
    rw [amount_of_not_mem hG hvalue hpart hcol' hs hmem]

theorem Shaped.nodup_states {k : Nat} {col : Column K W} (hcol : Shaped G goal k col) :
    col.states.Nodup := by
  refine List.pairwise_map.mpr (hcol.distinct.imp fun {a b} hne heq => hne ?_)
  rw [heq]
  exact BEq.rfl

/-- **What the cells of a column contribute**, over its states. -/
theorem Shaped.sum_cells {k : Nat} {col : Column K W} (hcol : Shaped G goal k col)
    (f : State K W → K → K) :
    (col.map fun c => f c.state (value (part c))).sum
      = ∑ s ∈ col.states.toFinset, f s (amount G.algebra value part col s) := by
  rw [List.sum_toFinset _ hcol.nodup_states, Column.states, List.map_map]
  congr 1
  refine List.map_congr_left fun c hc => ?_
  rw [Function.comp_apply, amount_of_mem hcol hc]

theorem Shaped.filter {k : Nat} {col : Column K W} (hcol : Shaped G goal k col)
    (p : Cell K W → Bool) : Shaped G goal k (List.filter p col) :=
  ⟨hcol.distinct.sublist List.filter_sublist,
    fun c hc => hcol.fits c (List.mem_of_mem_filter hc)⟩

end Parser
end StochasticGrammar
