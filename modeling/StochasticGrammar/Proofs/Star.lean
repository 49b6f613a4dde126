import StochasticGrammar.Closure.Star
import StochasticGrammar.Proofs.Arithmetic
import StochasticGrammar.Proofs.Outcome
import StochasticGrammar.Proofs.Reach

/-!
# What a star closure returns

Over distinct names, a closure that is formed is a table with one row per name, in order, and a row
holds exactly the names that a way leads to. Where an entry stands is settled by reachability alone;
its value is the solver's.

> `closure_eq_ok`: the rows of a closure, in closed form.

> `support_weights`: an entry of the weight matrix is positive where an edge leads.
-/

namespace StochasticGrammar.Star

open Relation (ReflTransGen)

variable {α P : Type} [BEq α]

/-- No two of the names are the same. -/
def DistinctNames (names : List α) : Prop :=
  names.Pairwise fun a b => ¬ (a == b) = true

theorem DistinctNames.index_eq [EquivBEq α] {names : List α} (h : DistinctNames names)
    {i j : Fin names.length} (hij : (names[i] == names[j]) = true) : i = j := by
  have hne : ∀ a b : Fin names.length, a < b → ¬ (names[a] == names[b]) = true :=
    fun a b hab => List.pairwise_iff_getElem.mp h a b a.2 b.2 hab
  rcases lt_trichotomy i j with hlt | heq | hgt
  · exact absurd hij (hne i j hlt)
  · exact heq
  · exact absurd (BEq.symm hij) (hne j i hgt)

/-! ## Places of names -/

theorem lastIndex?_eq_some {names : List α} {x : α} {i : Fin names.length}
    (h : lastIndex? names x = some i) : (names[i] == x) = true := by
  unfold lastIndex? at h
  simpa using List.find?_some h

/-- The ends of an edge that is found stand at its places. -/
theorem resolve_eq_ok {names : List α} {edge : α × α × P}
    {place : Fin names.length × Fin names.length × P} (h : resolve names edge = .ok place) :
    (names[place.1] == edge.1) = true ∧ (names[place.2.1] == edge.2.1) = true ∧
      place.2.2 = edge.2.2 := by
  unfold resolve at h
  split at h
  · cases h
  · cases h
  · next i j hi hj =>
    cases h
    exact ⟨lastIndex?_eq_some hi, lastIndex?_eq_some hj, rfl⟩

/-! ## Weights -/

/-- An entry of the weight matrix is positive where an edge leads. -/
theorem support_weights [Probability P] [PositiveSums P] {n : Nat}
    {edges : List (Fin n × Fin n × P)} (hpos : ∀ e ∈ edges, 0 < e.2.2) (i j : Fin n) :
    (support (weights edges)).entry i j = true ↔ ∃ e ∈ edges, e.1 = i ∧ e.2.1 = j := by
  rw [support, Square.entry_ofFn, decide_eq_true_eq, weights, Square.entry_ofFn,
    Probability.sum_pos_iff]
  · constructor
    · intro hne
      obtain ⟨p, hp⟩ := List.exists_mem_of_ne_nil _ hne
      obtain ⟨e, he, _⟩ := List.mem_map.mp hp
      exact ⟨e, (List.mem_filter.mp he).1, by simpa using (List.mem_filter.mp he).2⟩
    · rintro ⟨e, he, hij⟩
      exact List.ne_nil_of_mem (List.mem_map_of_mem (List.mem_filter.mpr ⟨he, by simpa using hij⟩))
  · intro p hp
    obtain ⟨e, he, rfl⟩ := List.mem_map.mp hp
    exact hpos e (List.mem_filter.mp he).1

/-! ## Rows -/

/-- A table with one row per name, in order, and in each row the names that are present. -/
def rows {W : Type} (names : List α) (present : Square names.length Bool)
    (value : Fin names.length → Fin names.length → W) : Table α (Table α W) :=
  (List.finRange names.length).map fun i =>
    (names[i], ((List.finRange names.length).filter (present.entry i)).map fun j =>
      (names[j], value i j))

section Rows

variable [EquivBEq α] {W : Type} {names : List α}

theorem DistinctNames.pairwise_finRange (h : DistinctNames names) :
    (List.finRange names.length).Pairwise fun i j => ¬ (names[i] == names[j]) = true :=
  (List.nodup_finRange names.length).imp fun {_ _} hij hbeq => hij (h.index_eq hbeq)

/-- Over distinct names, filling a table row by row leaves the rows in the order of the names. -/
theorem tabulate_eq (hnames : DistinctNames names) (values : Square names.length P)
    (present : Square names.length Bool) :
    tabulate names values present = rows names present values.entry := by
  have hpair : (List.finRange names.length).Pairwise
      fun i j => ¬ (names.get i == names.get j) = true := hnames.pairwise_finRange
  unfold tabulate rows
  rw [Table.foldl_insert hpair (fun e he => by cases he), List.nil_append]
  refine List.map_congr_left fun i _ => ?_
  rw [Table.foldl_insert (hpair.sublist List.filter_sublist) (fun e he => by cases he),
    List.nil_append]
  rfl

variable (present : Square names.length Bool) (value : Fin names.length → Fin names.length → W)

/-- The row of a name. -/
theorem get?_rows (hnames : DistinctNames names) (i : Fin names.length) :
    Table.get? (rows names present value) names[i]
      = some (((List.finRange names.length).filter (present.entry i)).map fun j =>
          (names[j], value i j)) :=
  Table.get?_of_mem (List.pairwise_map.mpr hnames.pairwise_finRange)
    (List.mem_map_of_mem (List.mem_finRange i)) BEq.rfl

/-- The entry of a name in a row: there if it is present. -/
theorem get?_row (hnames : DistinctNames names) (i j : Fin names.length) :
    Table.get? (((List.finRange names.length).filter (present.entry i)).map fun j =>
        (names[j], value i j)) names[j]
      = if present.entry i j = true then some (value i j) else none := by
  by_cases hij : present.entry i j = true
  · rw [if_pos hij]
    refine Table.get?_of_mem
      (List.pairwise_map.mpr (hnames.pairwise_finRange.sublist List.filter_sublist)) ?_ BEq.rfl
    exact List.mem_map_of_mem (List.mem_filter.mpr ⟨List.mem_finRange j, hij⟩)
  · rw [if_neg hij, Table.get?_eq_none_iff]
    rintro ⟨k, w⟩ hk hbeq
    obtain ⟨j', hj', heq⟩ := List.mem_map.mp hk
    cases heq
    rw [hnames.index_eq hbeq] at hij
    exact hij (List.mem_filter.mp hj').2

/-- The entry of two names: there if it is present. -/
theorem get?_entry (hnames : DistinctNames names) (i j : Fin names.length) :
    Table.get? ((Table.get? (rows names present value) names[i]).getD []) names[j]
      = if present.entry i j = true then some (value i j) else none := by
  rw [get?_rows present value hnames, Option.getD_some, get?_row present value hnames]

end Rows

/-- **What a closure returns.** Its edges were all found, its radius was below the bound, and its
rows hold the entries of the inverse wherever a way leads. -/
theorem closure_eq_ok [EquivBEq α] [Probability P] [DecidableEq P] {solver : Solver P}
    {names : List α} {edges : List (α × α × P)} {table : Table α (Table α P)}
    (hnames : DistinctNames names) (hne : names ≠ [])
    (h : closure solver names edges = .ok table) :
    ∃ places, edges.mapM (resolve names) = .ok places ∧
      ¬ 1 - 1e-12 ≤ radiusOf solver (weights places) ∧
      table = rows names (Reach.closure (support (weights places)))
        (solver.inverse (complement (weights places))).entry := by
  unfold closure at h
  rw [if_neg (by simpa using hne)] at h
  obtain ⟨places, hplaces, h⟩ := bind_eq_ok.mp h
  refine ⟨places, hplaces, ?_⟩
  dsimp only at h
  split at h
  · cases h
  · split at h
    · cases h
    · next hradius =>
      cases h
      exact ⟨hradius, tabulate_eq hnames _ _⟩

/-! ## Ways between names -/

/-- An edge leads from one name to the other. -/
def Leads (edges : List (α × α × P)) (x y : α) : Prop :=
  ∃ p, (x, y, p) ∈ edges

section Ways

variable {names : List α} {edges : List (α × α × P)}
  {places : List (Fin names.length × Fin names.length × P)}

/-- Places are joined by an edge when their names are. -/
theorem exists_place_iff
    (hplain : ∀ (i : Fin names.length) b, (names[i] == b) = true → names[i] = b)
    (hdistinct : ∀ {i j : Fin names.length}, names[i] = names[j] → i = j)
    (hplaces : edges.mapM (resolve names) = .ok places) (i j : Fin names.length) :
    (∃ e ∈ places, e.1 = i ∧ e.2.1 = j) ↔ Leads edges names[i] names[j] := by
  constructor
  · rintro ⟨e, he, rfl, rfl⟩
    obtain ⟨⟨x, y, p⟩, hedge, hresolve⟩ := exists_of_mem_mapM hplaces he
    obtain ⟨hx, hy, _⟩ := resolve_eq_ok hresolve
    exact ⟨p, by rw [hplain _ _ hx, hplain _ _ hy]; exact hedge⟩
  · rintro ⟨p, hedge⟩
    obtain ⟨e, he, hresolve⟩ := exists_mem_of_mapM hplaces hedge
    obtain ⟨hx, hy, _⟩ := resolve_eq_ok hresolve
    exact ⟨e, he, hdistinct (hplain _ _ hx),
      hdistinct (hplain _ _ hy)⟩

/-- Every edge starts at a name. -/
theorem exists_origin (hplain : ∀ (i : Fin names.length) b, (names[i] == b) = true → names[i] = b)
    (hplaces : edges.mapM (resolve names) = .ok places) {x y : α} (h : Leads edges x y) :
    ∃ i : Fin names.length, names[i] = x := by
  obtain ⟨p, hedge⟩ := h
  obtain ⟨e, _, hresolve⟩ := exists_mem_of_mapM hplaces hedge
  exact ⟨e.1, hplain _ _ (resolve_eq_ok hresolve).1⟩

/-- **Reachability between places is reachability between their names.** -/
theorem entry_reach_iff [EquivBEq α] [Probability P] [PositiveSums P] (hnames : DistinctNames names)
    (hplain : ∀ (i : Fin names.length) b, (names[i] == b) = true → names[i] = b)
    (hpos : ∀ e ∈ edges, 0 < e.2.2) (hplaces : edges.mapM (resolve names) = .ok places)
    (i j : Fin names.length) :
    (Reach.closure (support (weights places))).entry i j = true
      ↔ ReflTransGen (Leads edges) names[i] names[j] := by
  have hdistinct : ∀ {a b : Fin names.length}, names[a] = names[b] → a = b :=
    fun h => hnames.index_eq (by rw [h]; exact BEq.rfl)
  have hposplaces : ∀ e ∈ places, 0 < e.2.2 := by
    intro e he
    obtain ⟨edge, hedge, hresolve⟩ := exists_of_mem_mapM hplaces he
    rw [(resolve_eq_ok hresolve).2.2]
    exact hpos edge hedge
  have hstep : ∀ a b, (support (weights places)).entry a b = true ↔ Leads edges names[a] names[b] :=
    fun a b => (support_weights hposplaces a b).trans
      (exists_place_iff hplain hdistinct hplaces a b)
  rw [Reach.entry_closure]
  constructor
  · intro h
    induction h with
    | refl => exact .refl
    | tail _ hbc ih => exact ih.tail ((hstep _ _).mp hbc)
  · intro h
    -- every step starts from a name, since edges do
    generalize hy : names[j] = y at h
    induction h generalizing j with
    | refl => rw [hdistinct hy]
    | tail _ hyz ih =>
      obtain ⟨k, hk⟩ := exists_origin hplain hplaces hyz
      refine (ih k hk).tail ((hstep k j).mpr ?_)
      rw [hk, hy]
      exact hyz

end Ways

end StochasticGrammar.Star
