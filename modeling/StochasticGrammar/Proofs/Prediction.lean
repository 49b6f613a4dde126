import StochasticGrammar.Proofs.Shape

/-!
# What prediction leaves

Prediction touches no cell that is there. Behind them it puts one cell for each production that some
state calls for, however often it is called for.

> `Predicted`: the cells of a column after prediction.
-/

namespace StochasticGrammar.Parser

open Relation (ReflTransGen)

variable {P W : Type}

/-- The productions that a state calls for. -/
def calls (G : Grammar P W) (s : State P W) : List (Production P W) :=
  if s.dot = 0 ∧ s.rule.lhs ≠ .start then []
  else
    match s.next? with
    | none => []
    | some z =>
      if G.isNonterminal z then (G.leftCornersOf z).flatMap fun corner => G.productionsOf corner.1
      else []

/-- The cell of a production that was predicted, whatever its forward score. -/
structure IsPredicted (A : ScoreAlgebra P W) (k : Nat) (q : Production P W) (c : Cell P W) :
    Prop where
  state : c.state = .predicted q.rule k
  inner : c.inner = A.add A.zero q.rule.weight
  best : c.best = some ⟨.predicted, q.best, none, none, none⟩

variable [DecidableEq P] [DecidableEq W]

/-- A column in which some productions have been predicted behind the cells that were there. -/
def Extends (A : ScoreAlgebra P W) (k : Nat) (base : Column P W) (called : List (Production P W))
    (col : Column P W) : Prop :=
  ∃ fresh, col = base ++ fresh ∧ Column.Distinct fresh ∧
    (∀ c ∈ fresh, ∃ q ∈ called, IsPredicted A k q c) ∧
    ∀ q ∈ called, fresh.contains (.predicted q.rule k) = true

/-- An alteration of a state that stands behind some cells leaves these as they are. -/
theorem alter_append (A : ScoreAlgebra P W) {s : State P W} {f : Cell P W → Cell P W}
    {base : Column P W} (h : base.contains s = false) (fresh : Column P W) :
    Column.alter A s f (base ++ fresh) = base ++ Column.alter A s f fresh := by
  induction base with
  | nil => rfl
  | cons c base ih =>
    rw [show c :: base = [c] ++ base from rfl, Column.contains_append, Bool.or_eq_false_iff] at h
    have hc : ¬ (c.state == s) = true := by
      intro hcs
      rw [Column.contains_iff.mpr ⟨c, List.mem_singleton_self c, hcs⟩] at h
      exact Bool.noConfusion h.1
    rw [List.cons_append, Column.alter, if_neg hc, ih h.2]
    rfl

/-- Predicting one production. -/
theorem Extends.predictProduction {A : ScoreAlgebra P W} {k : Nat} {base col : Column P W}
    {called : List (Production P W)} (h : Extends A k base called col) {q : Production P W}
    (hbase : base.contains (.predicted q.rule k) = false) (forward chain : W) :
    Extends A k base (called ++ [q]) (predictProduction A k forward chain col q) := by
  obtain ⟨fresh, rfl, hdistinct, hfresh, hcovers⟩ := h
  have hisNew : (base ++ fresh).contains (.predicted q.rule k)
      = fresh.contains (.predicted q.rule k) := by
    rw [Column.contains_append, hbase, Bool.false_or]
  unfold Parser.predictProduction
  rw [alter_append A hbase, hisNew]
  have hstate : ∀ c : Cell P W, (if (!fresh.contains (State.predicted q.rule k)) = true then
      ((c.addForward A (A.times [forward, chain, q.rule.weight])).addInner A q.rule.weight).offer A
        ⟨.predicted, q.best, none, none, none⟩
      else c.addForward A (A.times [forward, chain, q.rule.weight])).state = c.state := by
    intro c
    split
    · rw [Cell.offer_state]
      rfl
    · rfl
  refine ⟨_, rfl, Column.distinct_alter A hstate hdistinct, fun c hc => ?_, fun p hp => ?_⟩
  · rcases Column.mem_alter A hdistinct hc with ⟨hc, _⟩ | rfl
    · obtain ⟨p, hp, hpc⟩ := hfresh c hc
      exact ⟨p, List.mem_append_left _ hp, hpc⟩
    · cases hnew : fresh.contains (State.predicted q.rule k) with
      | false =>
        refine ⟨q, List.mem_append_right _ List.mem_cons_self, ?_⟩
        rw [Column.cell, Column.find?_eq_none_of_not_contains hnew]
        exact ⟨rfl, rfl, rfl⟩
      | true =>
        obtain ⟨d, hd⟩ := Option.isSome_iff_exists.mp hnew
        obtain ⟨p, hp, hpd⟩ := hfresh d (Column.mem_of_find? hd).1
        refine ⟨p, List.mem_append_left _ hp, ?_⟩
        rw [Column.cell, hd]
        exact ⟨hpd.state, hpd.inner, hpd.best⟩
  · rw [Column.contains_alter A hstate, Bool.or_eq_true]
    rcases List.mem_append.mp hp with hp | hp
    · exact Or.inr (hcovers p hp)
    · rw [List.mem_singleton.mp hp]
      exact Or.inl BEq.rfl

theorem Extends.foldl_productions {A : ScoreAlgebra P W} {k : Nat} {base col : Column P W}
    {called qs : List (Production P W)} (h : Extends A k base called col)
    (hbase : ∀ q ∈ qs, base.contains (.predicted q.rule k) = false) (forward chain : W) :
    Extends A k base (called ++ qs)
      (qs.foldl (Parser.predictProduction A k forward chain) col) := by
  induction qs generalizing called col with
  | nil => simpa using h
  | cons q qs ih =>
    have hq := h.predictProduction (hbase q List.mem_cons_self) forward chain
    have hqs := ih hq fun p hp => hbase p (List.mem_cons_of_mem _ hp)
    rwa [List.append_assoc] at hqs

variable {G : Grammar P W}

theorem Extends.foldl_corners {k : Nat} {base col : Column P W} {called : List (Production P W)}
    {corners : Table Category W} (h : Extends G.algebra k base called col)
    (hbase : ∀ q ∈ corners.flatMap fun corner => G.productionsOf corner.1,
      base.contains (.predicted q.rule k) = false) (forward : W) :
    Extends G.algebra k base (called ++ corners.flatMap fun corner => G.productionsOf corner.1)
      (corners.foldl (fun col corner => (G.productionsOf corner.1).foldl
        (Parser.predictProduction G.algebra k forward corner.2) col) col) := by
  induction corners generalizing called col with
  | nil => simpa using h
  | cons corner corners ih =>
    have hcorner := h.foldl_productions
      (fun q hq => hbase q (List.mem_append_left _ hq)) forward corner.2
    have hcorners := ih hcorner fun q hq => hbase q (List.mem_append_right _ hq)
    rwa [List.append_assoc] at hcorners

theorem Extends.predictFrom {k : Nat} {base col : Column P W} {called : List (Production P W)}
    (h : Extends G.algebra k base called col) {s : State P W}
    (hbase : ∀ q ∈ calls G s, base.contains (.predicted q.rule k) = false) :
    Extends G.algebra k base (called ++ calls G s) (Parser.predictFrom G k col s) := by
  unfold Parser.predictFrom
  unfold calls at hbase ⊢
  by_cases hkernel : s.dot = 0 ∧ s.rule.lhs ≠ .start
  · rw [if_pos hkernel, if_pos hkernel]
    simpa using h
  · rw [if_neg hkernel] at hbase ⊢
    rw [if_neg hkernel]
    cases hnext : s.next? with
    | none => simpa using h
    | some z =>
      simp only [hnext] at hbase ⊢
      by_cases hz : G.isNonterminal z = true
      · rw [if_pos hz] at hbase ⊢
        rw [if_pos hz]
        exact h.foldl_corners hbase _
      · rw [if_neg hz, if_neg hz]
        simpa using h

theorem Extends.foldl_states {k : Nat} {base col : Column P W} {called : List (Production P W)}
    {states : List (State P W)} (h : Extends G.algebra k base called col)
    (hbase : ∀ s ∈ states, ∀ q ∈ calls G s, base.contains (.predicted q.rule k) = false) :
    Extends G.algebra k base (called ++ states.flatMap (calls G))
      (states.foldl (Parser.predictFrom G k) col) := by
  induction states generalizing called col with
  | nil => simpa using h
  | cons s states ih =>
    have hs := h.predictFrom (hbase s List.mem_cons_self)
    have hstates := ih hs fun t ht => hbase t (List.mem_cons_of_mem _ ht)
    rwa [List.append_assoc] at hstates

variable [Probability P] {solver : Solver P} {goal : Category}

/-- A kernel state calls for the productions of everything at the left corner of what it waits
for. -/
theorem mem_calls [PositiveSums P] (hG : G.Compiled solver) {s : State P W} {q : Production P W} :
    q ∈ calls G s ↔ ¬ (s.dot = 0 ∧ s.rule.lhs ≠ .start) ∧ ∃ z, s.next? = some z ∧ z ∈ G.names ∧
      ∃ x, ReflTransGen G.LeftStep z x ∧ q ∈ G.productionsOf x := by
  unfold calls
  by_cases hkernel : s.dot = 0 ∧ s.rule.lhs ≠ .start
  · rw [if_pos hkernel]
    simp [hkernel]
  · rw [if_neg hkernel, and_iff_right hkernel]
    cases hnext : s.next? with
    | none => simp
    | some z =>
      by_cases hz : G.isNonterminal z = true
      · simp only [if_pos hz, List.mem_flatMap]
        constructor
        · rintro ⟨⟨x, w⟩, hx, hq⟩
          obtain ⟨hnames, hchain⟩ := hG.mem_leftCornersOf.mp ⟨w, hx⟩
          exact ⟨z, rfl, hnames, x, hchain, hq⟩
        · rintro ⟨z', heq, hnames, x, hchain, hq⟩
          cases heq
          obtain ⟨w, hw⟩ := hG.mem_leftCornersOf.mpr ⟨hnames, hchain⟩
          exact ⟨(x, w), hw, hq⟩
      · simp only [if_neg hz]
        constructor
        · intro hq
          cases hq
        · rintro ⟨z', heq, hnames, _⟩
          cases heq
          exact absurd (hG.isNonterminal_iff.mpr hnames) hz

/-- What prediction leaves of a column. -/
structure Predicted (G : Grammar P W) (goal : Category) (k : Nat) (base col : Column P W) :
    Prop where
  predict_eq : predict G k base = col
  shaped : Shaped G goal k col
  keeps : ∀ c ∈ base, c ∈ col
  cases : ∀ c ∈ col, c ∈ base ∨ ∃ d ∈ base, ∃ q ∈ calls G d.state, IsPredicted G.algebra k q c
  covers : ∀ d ∈ base, ∀ q ∈ calls G d.state, ∃ c ∈ col, c.state = .predicted q.rule k

theorem exists_mem_productionsOf [PositiveSums P] (hG : G.Compiled solver) {s : State P W}
    {q : Production P W} (hq : q ∈ calls G s) : ∃ x, q ∈ G.productionsOf x := by
  obtain ⟨_, _, _, _, x, _, hq⟩ := (mem_calls hG).mp hq
  exact ⟨x, hq⟩

/-- A predicted state stands where it starts, so it is not among the kernel states. -/
theorem contains_predicted_eq_false [PositiveSums P] (hG : G.Compiled solver) {k : Nat}
    {base : Column P W} (hbase : Shaped G goal k base)
    (hkernel : ∀ c ∈ base, c.state.dot = 0 → c.state.rule.lhs = .start) {s : State P W}
    {q : Production P W} (hq : q ∈ calls G s) : base.contains (.predicted q.rule k) = false := by
  obtain ⟨x, hq⟩ := exists_mem_productionsOf hG hq
  rw [Bool.eq_false_iff]
  intro hcontains
  obtain ⟨c, hc, heq⟩ := (hbase.contains_iff hG (.used hq)).mp hcontains
  refine lhs_ne_start_of_used hG hq ?_
  have hlhs := hkernel c hc (by rw [heq]; rfl)
  rwa [heq] at hlhs

theorem extends_predict [PositiveSums P] (hG : G.Compiled solver) {k : Nat} {base : Column P W}
    (hbase : Shaped G goal k base)
    (hkernel : ∀ c ∈ base, c.state.dot = 0 → c.state.rule.lhs = .start) :
    Extends G.algebra k base (base.states.flatMap (calls G)) (predict G k base) := by
  have hstart : Extends G.algebra k base [] base :=
    ⟨[], by simp, List.Pairwise.nil, fun c hc => (by cases hc), fun q hq => (by cases hq)⟩
  exact hstart.foldl_states fun s _ q hq => contains_predicted_eq_false hG hbase hkernel hq

/-- **What prediction leaves.** Of the cells that are there before, only those of the start symbol
may stand where they start. -/
theorem predicted_predict [PositiveSums P] (hG : G.Compiled solver) {k : Nat} {base : Column P W}
    (hbase : Shaped G goal k base)
    (hkernel : ∀ c ∈ base, c.state.dot = 0 → c.state.rule.lhs = .start) :
    Predicted G goal k base (predict G k base) := by
  have hrule : ∀ {s : State P W} {q : Production P W}, q ∈ calls G s → ChartRule G goal q.rule := by
    intro s q hq
    obtain ⟨x, hq⟩ := exists_mem_productionsOf hG hq
    exact .used hq
  obtain ⟨fresh, hcol, hdistinct, hfresh, hcovers⟩ := extends_predict hG hbase hkernel
  have hcalled : ∀ c ∈ fresh, ∃ d ∈ base, ∃ q ∈ calls G d.state, IsPredicted G.algebra k q c := by
    intro c hc
    obtain ⟨q, hq, hqc⟩ := hfresh c hc
    obtain ⟨s, hs, hq⟩ := List.mem_flatMap.mp hq
    obtain ⟨d, hd, rfl⟩ := List.mem_map.mp hs
    exact ⟨d, hd, q, hq, hqc⟩
  rw [hcol]
  refine ⟨hcol, ⟨List.pairwise_append.mpr ⟨hbase.distinct, hdistinct, fun b hb c hc hbc => ?_⟩,
    fun c hc => ?_⟩, fun c hc => List.mem_append_left _ hc, fun c hc => ?_, fun d hd q hq => ?_⟩
  · obtain ⟨d, _, q, hq, hqc⟩ := hcalled c hc
    rw [hqc.state] at hbc
    have hcontains := Column.contains_iff.mpr ⟨b, hb, hbc⟩
    rw [contains_predicted_eq_false hG hbase hkernel hq] at hcontains
    cases hcontains
  · rcases List.mem_append.mp hc with hc | hc
    · exact hbase.fits c hc
    · obtain ⟨d, _, q, hq, hqc⟩ := hcalled c hc
      obtain ⟨x, hq⟩ := exists_mem_productionsOf hG hq
      rw [hqc.state]
      exact .predicted hG hq k
  · exact (List.mem_append.mp hc).imp_right (hcalled c)
  · have hcontains := hcovers q (List.mem_flatMap.mpr ⟨d.state, List.mem_map_of_mem hd, hq⟩)
    obtain ⟨c, hc, hcq⟩ := Column.contains_iff.mp hcontains
    obtain ⟨_, _, p, hp, hpc⟩ := hcalled c hc
    refine ⟨c, List.mem_append_right _ hc, ?_⟩
    rw [hpc.state] at hcq ⊢
    exact (State.beq_iff_eq (discrete_chartRule hG) (hrule hp) (hrule hq)).mp hcq

end StochasticGrammar.Parser
