import Mathlib.Algebra.BigOperators.Fin
import StochasticGrammar.Proofs.Compiled

/-!
# Chains of a compiled grammar

Prediction and completion jump over whole chains of rules, through tables that were computed once.
Whether a table has an entry is decided by the chains alone, whatever the numbers in it are:

> `mem_leftCornersOf`: the left corners of a category are what chains of first symbols lead to.

> `mem_unitSources`: the unit sources of a category are what chains of unit rules lead from.
-/

namespace StochasticGrammar

open Relation (ReflTransGen)

variable {P W : Type}

namespace Grammar

/-- A production of the first category begins with the second one, which is expanded in turn. -/
def LeftStep (G : Grammar P W) (x y : Category) : Prop :=
  ∃ q ∈ G.productionsOf x, ∃ rest, q.rule.rhs = y :: rest ∧ G.isNonterminal y = true

/-- A production turns the first category into the second one, which is expanded in turn. -/
def UnitStep (G : Grammar P W) (x y : Category) : Prop :=
  ∃ q ∈ G.productionsOf x, q.rule.rhs = [y] ∧ G.isNonterminal y = true

/-- A unit step is a left step over a right side with nothing behind its first symbol. -/
theorem UnitStep.leftStep {G : Grammar P W} {x y : Category} (h : G.UnitStep x y) :
    G.LeftStep x y := by
  obtain ⟨q, hq, hrhs, hy⟩ := h
  exact ⟨q, hq, [], hrhs, hy⟩

/-! ## Edges -/

/-- An edge leads from a rule to the category that its right side begins with. -/
theorem mem_leftEdges {names : List Category} {rules : List (Rule P W)}
    {e : Category × Category × P} :
    e ∈ leftEdges names rules ↔ ∃ r ∈ rules, ∃ rest, r.rhs = e.2.1 :: rest ∧
      expands names e.2.1 = true ∧ r.lhs = e.1 ∧ r.probability = e.2.2 := by
  unfold leftEdges
  rw [List.mem_filterMap]
  refine exists_congr fun r => and_congr_right fun _ => ?_
  cases hrhs : r.rhs with
  | nil => simp
  | cons y rest =>
    obtain ⟨a, b, p⟩ := e
    by_cases hy : expands names y = true
    · simp only [if_pos hy, Option.some.injEq, Prod.mk.injEq, List.cons.injEq]
      constructor
      · rintro ⟨ha, rfl, hp⟩
        exact ⟨rest, ⟨rfl, rfl⟩, hy, ha, hp⟩
      · rintro ⟨_, ⟨rfl, _⟩, _, ha, hp⟩
        exact ⟨ha, rfl, hp⟩
    · simp only [if_neg hy, List.cons.injEq]
      constructor
      · intro h
        cases h
      · rintro ⟨_, ⟨rfl, _⟩, h, _⟩
        exact absurd h hy

/-- An edge leads from a unit rule to the category that is its right side. -/
theorem mem_unitEdges {names : List Category} {rules : List (Rule P W)}
    {e : Category × Category × P} :
    e ∈ unitEdges names rules ↔ ∃ r ∈ rules, r.rhs = [e.2.1] ∧
      expands names e.2.1 = true ∧ r.lhs = e.1 ∧ r.probability = e.2.2 := by
  unfold unitEdges
  rw [List.mem_filterMap]
  refine exists_congr fun r => and_congr_right fun _ => ?_
  obtain ⟨a, b, p⟩ := e
  split
  · next y hrhs =>
    by_cases hy : expands names y = true
    · simp only [if_pos hy, Option.some.injEq, Prod.mk.injEq, hrhs, List.cons.injEq, and_true]
      constructor
      · rintro ⟨ha, rfl, hp⟩
        exact ⟨rfl, hy, ha, hp⟩
      · rintro ⟨rfl, _, ha, hp⟩
        exact ⟨ha, rfl, hp⟩
    · simp only [if_neg hy, hrhs, List.cons.injEq, and_true]
      constructor
      · intro h
        cases h
      · rintro ⟨rfl, h, _⟩
        exact absurd h hy
  · next hrhs =>
    constructor
    · intro h
      cases h
    · rintro ⟨h, _⟩
      exact absurd h (hrhs b)

/-- Every edge of a unit rule is one of left corners too. -/
theorem unitEdges_sublist (names : List Category) (rules : List (Rule P W)) :
    (unitEdges names rules).Sublist (leftEdges names rules) := by
  have heq : unitEdges names rules = leftEdges names (rules.filter (·.rhs.length == 1)) := by
    unfold unitEdges leftEdges
    rw [List.filterMap_filter]
    congr 1
    funext r
    match r.rhs with
    | [] => rfl
    | [_] => rfl
    | _ :: _ :: _ => simp
  rw [heq]
  exact List.filter_sublist.filterMap _

/-- The edges of rules with positive probabilities are positive. -/
theorem leftEdges_pos [Probability P] (names : List Category) {rules : List (Rule P W)}
    (h : ∀ r ∈ rules, 0 < r.probability) : ∀ e ∈ leftEdges names rules, 0 < e.2.2 := by
  intro e he
  obtain ⟨r, hr, _, _, _, _, hp⟩ := mem_leftEdges.mp he
  exact hp ▸ h r hr

/-- Unit rules are among these edges. -/
theorem unitEdges_pos [Probability P] (names : List Category) {rules : List (Rule P W)}
    (h : ∀ r ∈ rules, 0 < r.probability) : ∀ e ∈ unitEdges names rules, 0 < e.2.2 :=
  fun e he => leftEdges_pos names h e ((unitEdges_sublist names rules).subset he)

/-- Encoding the entries of a table changes no row. -/
theorem encode_rows (A : ScoreAlgebra P W) (names : List Category)
    (present : Square names.length Bool) (value : Fin names.length → Fin names.length → P) :
    encode A (Star.rows names present value)
      = Star.rows names present fun i j => A.ofProbability (value i j) := by
  simp [encode, Star.rows, Function.comp_def]

/-! ## Names and their places -/

theorem name_mem (G : Grammar P W) (i : Fin G.names.length) : G.names[i] ∈ G.names :=
  List.getElem_mem i.2

theorem exists_name {G : Grammar P W} {x : Category} (hx : x ∈ G.names) :
    ∃ i : Fin G.names.length, G.names[i] = x := by
  obtain ⟨i, hi, hix⟩ := List.getElem_of_mem hx
  exact ⟨⟨i, hi⟩, hix⟩

variable [DecidableEq P] [DecidableEq W] [Probability P] {solver : Solver P} {G : Grammar P W}

namespace Compiled

/-- No name has two lists of productions. -/
theorem productions_distinct (h : Compiled solver G) :
    G.productions.Pairwise fun a b => ¬ (a.1 == b.1) = true := by
  obtain ⟨flat, _, hprod⟩ := h.productions
  rw [hprod]
  exact List.pairwise_map.mpr h.names.distinct

/-- The compiled rules are those of the productions, by category. -/
theorem mem_compiledRules (h : Compiled solver G) {r : Rule P W} :
    r ∈ G.compiledRules ↔ ∃ q ∈ G.productionsOf r.lhs, q.rule = r := by
  unfold compiledRules
  rw [List.mem_flatMap]
  constructor
  · rintro ⟨⟨x, qs⟩, hentry, hr⟩
    obtain ⟨q, hq, rfl⟩ := List.mem_map.mp hr
    have hx : q ∈ G.productionsOf x := by
      unfold productionsOf
      rw [Table.get?_of_mem h.productions_distinct hentry BEq.rfl]
      exact hq
    rw [(h.isSound hx).lhs]
    exact ⟨q, hx, rfl⟩
  · rintro ⟨q, hq, hqr⟩
    unfold productionsOf at hq
    cases hget : Table.get? G.productions r.lhs with
    | none =>
      rw [hget] at hq
      cases hq
    | some qs =>
      rw [hget] at hq
      obtain ⟨k, hk, _⟩ := Table.mem_of_get? hget
      exact ⟨(k, qs), hk, List.mem_map.mpr ⟨q, hq, hqr⟩⟩

theorem compiled_of_mem_productionsOf (h : Compiled solver G) {x : Category} {q : Production P W}
    (hq : q ∈ G.productionsOf x) : q.rule ∈ G.compiledRules ∧ q.rule.lhs = x := by
  have hlhs := (h.isSound hq).lhs
  exact ⟨h.mem_compiledRules.mpr ⟨q, by rw [hlhs]; exact hq, rfl⟩, hlhs⟩

/-- The rules that chains are made of are those that the parser uses. -/
theorem mem_compiledRules_iff_uses (h : Compiled solver G) {r : Rule P W} :
    r ∈ G.compiledRules ↔ G.Uses r := by
  constructor
  · intro hr
    obtain ⟨q, hq, hqr⟩ := h.mem_compiledRules.mp hr
    exact ⟨_, q, hq, hqr⟩
  · rintro ⟨x, q, hq, rfl⟩
    exact (h.compiled_of_mem_productionsOf hq).1

theorem probability_pos (h : Compiled solver G) {r : Rule P W} (hr : r ∈ G.compiledRules) :
    0 < r.probability := by
  obtain ⟨q, hq, rfl⟩ := h.mem_compiledRules.mp hr
  exact (h.isSound hq).proper.2.1

/-- **No rule is used twice.** -/
theorem nodup_compiledRules (h : Compiled solver G) : G.compiledRules.Nodup := by
  obtain ⟨flat, hflat, hprod⟩ := h.productions
  obtain ⟨qss, hqss, heq⟩ := bind_eq_ok.mp hflat
  cases heq
  have hexpansion : ∀ {r qs q}, r ∈ G.rules → Omission.expand G.algebra G.nullable
      G.emptyProbability G.bestEmptyProbability r = .ok qs → q ∈ qs → Expansion G r q := by
    intro r qs q hr hqs hq
    obtain ⟨hne, hexp⟩ := (Omission.mem_expand hqs q).mp hq
    exact ⟨hr, hne, hexp⟩
  have hflatten : (qss.flatten.map (·.rule)).Nodup := by
    rw [List.map_flatten, List.nodup_flatten]
    constructor
    · intro rs hrs
      obtain ⟨qs, hqs, rfl⟩ := List.mem_map.mp hrs
      obtain ⟨r, hr, hexpand⟩ := exists_of_mem_mapM hqss hqs
      exact h.nodup_expand hr hexpand
    · refine List.pairwise_map.mpr (pairwise_of_forall₂ (mapM_eq_ok_iff.mp hqss) h.distinct ?_)
      rintro r hr r' hr' qs qs' hqs hqs' hne rule hrule hrule'
      obtain ⟨q, hq, rfl⟩ := List.mem_map.mp hrule
      obtain ⟨q', hq', heq⟩ := List.mem_map.mp hrule'
      have hsource := h.source_eq (hexpansion hr hqs hq) (hexpansion hr' hqs' hq') heq.symm
      rw [hsource] at hne
      exact hne BEq.rfl
  -- the table lists the productions by name, and a rule has one left side
  have hcompiled : G.compiledRules
      = G.names.flatMap fun x => (qss.flatten.filter fun q => q.rule.lhs == x).map (·.rule) := by
    rw [compiledRules, hprod, indexProductions, List.flatMap_map]
  rw [hcompiled, List.nodup_flatMap]
  refine ⟨fun x _ => hflatten.sublist (List.filter_sublist.map _), h.names.distinct.imp ?_⟩
  intro x y hxy rule hrule hrule'
  obtain ⟨q, hq, rfl⟩ := List.mem_map.mp hrule
  obtain ⟨q', hq', heq⟩ := List.mem_map.mp hrule'
  have hx := (List.mem_filter.mp hq).2
  have hy := (List.mem_filter.mp hq').2
  rw [heq] at hy
  exact hxy (BEq.trans (BEq.symm hx) hy)

/-- The edges join a category to its left corners. -/
theorem leads_leftEdges (h : Compiled solver G) (x y : Category) :
    Star.Leads (leftEdges G.names G.compiledRules) x y ↔ G.LeftStep x y := by
  constructor
  · rintro ⟨p, hp⟩
    obtain ⟨r, hr, rest, hrhs, hy, rfl, _⟩ := mem_leftEdges.mp hp
    obtain ⟨q, hq, rfl⟩ := h.mem_compiledRules.mp hr
    exact ⟨q, hq, rest, hrhs, hy⟩
  · rintro ⟨q, hq, rest, hrhs, hy⟩
    obtain ⟨hr, hlhs⟩ := h.compiled_of_mem_productionsOf hq
    exact ⟨q.rule.probability, mem_leftEdges.mpr ⟨q.rule, hr, rest, hrhs, hy, hlhs, rfl⟩⟩

/-- The edges join a category to those that unit rules replace it by. -/
theorem leads_unitEdges (h : Compiled solver G) (x y : Category) :
    Star.Leads (unitEdges G.names G.compiledRules) x y ↔ G.UnitStep x y := by
  constructor
  · rintro ⟨p, hp⟩
    obtain ⟨r, hr, hrhs, hy, rfl, _⟩ := mem_unitEdges.mp hp
    obtain ⟨q, hq, rfl⟩ := h.mem_compiledRules.mp hr
    exact ⟨q, hq, hrhs, hy⟩
  · rintro ⟨q, hq, hrhs, hy⟩
    obtain ⟨hr, hlhs⟩ := h.compiled_of_mem_productionsOf hq
    exact ⟨q.rule.probability, mem_unitEdges.mpr ⟨q.rule, hr, hrhs, hy, hlhs, rfl⟩⟩

/-- A name stands for itself only. -/
theorem name_eq_of_beq (h : Compiled solver G) (i : Fin G.names.length) (b : Category)
    (hb : (G.names[i] == b) = true) : G.names[i] = b :=
  Category.eq_of_beq (h.names_plain (List.getElem_mem i.2)) hb

/-- A table of chains: its rows and columns are the names, and it has an entry where a chain
leads. -/
def IsChainTable (names : List Category) (step : Category → Category → Prop)
    (table : Table Category (Table Category W)) : Prop :=
  ∃ present value, table = Star.rows names present value ∧
    ∀ i j, present.entry i j = true ↔ ReflTransGen step names[i] names[j]

/-- A closure over the names is a table of the chains that its edges make up. -/
theorem isChainTable [PositiveSums P] (h : Compiled solver G)
    {edges : List (Category × Category × P)} {step : Category → Category → Prop}
    {table : Table Category (Table Category P)} (hpos : ∀ e ∈ edges, 0 < e.2.2)
    (hleads : ∀ x y, Star.Leads edges x y ↔ step x y)
    (hclosure : Star.closure solver G.names edges = .ok table) :
    IsChainTable G.names step (encode G.algebra table) := by
  by_cases hne : G.names = []
  · rw [Star.closure, if_pos (by rw [hne]; rfl)] at hclosure
    cases hclosure
    refine ⟨.ofFn fun _ _ => false, fun _ _ => G.algebra.zero, ?_, fun i => ?_⟩
    · simp [encode, Star.rows, hne]
    · exact absurd i.2 (by simp [hne])
  · obtain ⟨places, hplaces, _, rfl⟩ := Star.closure_eq_ok h.names.distinct hne hclosure
    have hstep : Star.Leads edges = step := by
      funext x y
      exact propext (hleads x y)
    refine ⟨_, _, encode_rows _ _ _ _, fun i j => ?_⟩
    rw [← hstep]
    exact Star.entry_reach_iff h.names.distinct h.name_eq_of_beq hpos hplaces i j

/-- **The table of left corners holds all chains of left corners.** -/
theorem isChainTable_leftCorners [PositiveSums P] (h : Compiled solver G) :
    IsChainTable G.names G.LeftStep G.leftCorners := by
  obtain ⟨rows, hrows, heq⟩ := h.leftCorners
  rw [heq]
  exact h.isChainTable (leftEdges_pos _ fun _ => h.probability_pos) h.leads_leftEdges hrows

/-- **The table of unit chains holds all chains of unit rules.** -/
theorem isChainTable_unitChains [PositiveSums P] (h : Compiled solver G) :
    IsChainTable G.names G.UnitStep G.unitChains := by
  obtain ⟨rows, hrows, heq⟩ := h.unitChains
  rw [heq]
  exact h.isChainTable (unitEdges_pos _ fun _ => h.probability_pos) h.leads_unitEdges hrows

/-! ## What the tables hold -/

/-- Chains lead from names to names. -/
theorem mem_names_of_leftStep (h : Compiled solver G) {x y : Category} (hx : x ∈ G.names)
    (hxy : ReflTransGen G.LeftStep x y) : y ∈ G.names := by
  cases hxy with
  | refl => exact hx
  | tail _ hstep =>
    obtain ⟨q, _, rest, _, hy⟩ := hstep
    exact h.isNonterminal_iff.mp hy

theorem mem_names_of_unitStep (h : Compiled solver G) {x y : Category} (hy : y ∈ G.names)
    (hxy : ReflTransGen G.UnitStep x y) : x ∈ G.names := by
  cases hxy.cases_head with
  | inl heq => exact heq ▸ hy
  | inr hstep =>
    obtain ⟨_, ⟨q, hq, _⟩, _⟩ := hstep
    exact h.isNonterminal_iff.mp (h.isSound hq).nonterminal

/-- **The left corners of a category** are what chains of first symbols lead to. -/
theorem mem_leftCornersOf [PositiveSums P] (h : Compiled solver G) {x y : Category} :
    (∃ w, (y, w) ∈ G.leftCornersOf x) ↔ x ∈ G.names ∧ ReflTransGen G.LeftStep x y := by
  obtain ⟨present, value, htable, hpresent⟩ := h.isChainTable_leftCorners
  unfold leftCornersOf
  rw [htable]
  constructor
  · rintro ⟨w, hw⟩
    cases hget : Table.get? (Star.rows G.names present value) x with
    | none =>
      rw [hget] at hw
      cases hw
    | some row =>
      rw [hget] at hw
      obtain ⟨k, hk, hxk⟩ := Table.mem_of_get? hget
      obtain ⟨i, _, heq⟩ := List.mem_map.mp hk
      cases heq
      obtain ⟨j, hj, heq⟩ := List.mem_map.mp hw
      cases heq
      rw [← h.name_eq_of_beq i x (BEq.symm hxk)]
      exact ⟨name_mem G i, (hpresent i j).mp (List.mem_filter.mp hj).2⟩
  · rintro ⟨hx, hxy⟩
    obtain ⟨i, rfl⟩ := exists_name hx
    obtain ⟨j, rfl⟩ := exists_name (h.mem_names_of_leftStep hx hxy)
    rw [Star.get?_rows present value h.names.distinct]
    refine ⟨value i j, List.mem_map_of_mem (List.mem_filter.mpr ⟨List.mem_finRange j, ?_⟩)⟩
    exact (hpresent i j).mpr hxy

/-! ## Rows of the tables -/

theorem nodup_names (h : Compiled solver G) : G.names.Nodup := by
  refine h.names.distinct.imp fun {a b} hne heq => hne ?_
  rw [heq]
  exact BEq.rfl

/-- A sum over the names, by their places. -/
theorem sum_names {M : Type} [AddCommMonoid M] (h : Compiled solver G) (f : Category → M) :
    ∑ i : Fin G.names.length, f G.names[i] = ∑ x ∈ G.names.toFinset, f x :=
  (Fin.sum_univ_fun_getElem G.names f).trans (List.sum_toFinset f h.nodup_names).symm

/-- The left corners of a name, in order. -/
theorem leftCornersOf_rows (h : Compiled solver G) {present : Square G.names.length Bool}
    {value : Fin G.names.length → Fin G.names.length → W}
    (htable : G.leftCorners = Star.rows G.names present value) (i : Fin G.names.length) :
    G.leftCornersOf G.names[i]
      = ((List.finRange G.names.length).filter (present.entry i)).map fun j =>
          (G.names[j], value i j) := by
  unfold leftCornersOf
  rw [htable, Star.get?_rows present value h.names.distinct]
  rfl

theorem leftCornerScore_rows (h : Compiled solver G) {present : Square G.names.length Bool}
    {value : Fin G.names.length → Fin G.names.length → W}
    (htable : G.leftCorners = Star.rows G.names present value) (i j : Fin G.names.length) :
    G.leftCornerScore G.names[i] G.names[j]
      = if present.entry i j = true then value i j else G.algebra.zero := by
  unfold leftCornerScore leftCornersOf
  rw [htable, Star.get?_entry present value h.names.distinct]
  split <;> rfl

theorem unitScore_rows (h : Compiled solver G) {present : Square G.names.length Bool}
    {value : Fin G.names.length → Fin G.names.length → W}
    (htable : G.unitChains = Star.rows G.names present value) (i j : Fin G.names.length) :
    G.unitScore G.names[i] G.names[j]
      = if present.entry i j = true then value i j else G.algebra.zero := by
  unfold unitScore
  rw [htable, Star.get?_entry present value h.names.distinct]
  split <;> rfl

/-- The unit sources of a name, row by row. -/
theorem unitSources_rows (h : Compiled solver G) {present : Square G.names.length Bool}
    {value : Fin G.names.length → Fin G.names.length → W}
    (htable : G.unitChains = Star.rows G.names present value) (j : Fin G.names.length) :
    G.unitSources G.names[j]
      = ((List.finRange G.names.length).filter fun i => present.entry i j).map fun i =>
          (G.names[i], value i j) := by
  have hrow : ∀ i : Fin G.names.length,
      ((if present.entry i j = true then some (value i j) else none).map fun w => (G.names[i], w))
        = if present.entry i j = true then some (G.names[i], value i j) else none := by
    intro i
    split <;> rfl
  unfold unitSources
  rw [htable, Star.rows, List.filterMap_map, ← List.filterMap_eq_map, List.filterMap_filter]
  refine List.filterMap_congr fun i _ => ?_
  rw [Function.comp_apply, Star.get?_row present value h.names.distinct, hrow, Function.comp_apply]

/-- **The unit sources of a category** are what chains of unit rules lead from. -/
theorem mem_unitSources [PositiveSums P] (h : Compiled solver G) {x y : Category} :
    (∃ w, (x, w) ∈ G.unitSources y) ↔ y ∈ G.names ∧ ReflTransGen G.UnitStep x y := by
  obtain ⟨present, value, htable, hpresent⟩ := h.isChainTable_unitChains
  by_cases hy : y ∈ G.names
  · obtain ⟨j, rfl⟩ := exists_name hy
    rw [h.unitSources_rows htable]
    constructor
    · rintro ⟨w, hw⟩
      obtain ⟨i, hi, heq⟩ := List.mem_map.mp hw
      cases heq
      exact ⟨hy, (hpresent i j).mp (List.mem_filter.mp hi).2⟩
    · rintro ⟨_, hxy⟩
      obtain ⟨i, rfl⟩ := exists_name (h.mem_names_of_unitStep hy hxy)
      refine ⟨value i j, List.mem_map_of_mem (List.mem_filter.mpr ⟨List.mem_finRange i, ?_⟩)⟩
      exact (hpresent i j).mpr hxy
  · constructor
    · rintro ⟨w, hw⟩
      unfold unitSources at hw
      rw [htable] at hw
      obtain ⟨⟨x', row⟩, hrow, hw⟩ := List.mem_filterMap.mp hw
      obtain ⟨i, _, heq⟩ := List.mem_map.mp hrow
      cases heq
      obtain ⟨w', hw', _⟩ := Option.map_eq_some_iff.mp hw
      obtain ⟨k, hk, hyk⟩ := Table.mem_of_get? hw'
      obtain ⟨j, _, heq⟩ := List.mem_map.mp hk
      cases heq
      rw [← h.name_eq_of_beq j y (BEq.symm hyk)] at hy
      exact absurd (name_mem G j) hy
    · rintro ⟨hy', _⟩
      exact absurd hy' hy

end Compiled
end Grammar
end StochasticGrammar
