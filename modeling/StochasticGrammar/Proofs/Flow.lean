import Mathlib.Tactic.Ring
import StochasticGrammar.Proofs.Amounts
import StochasticGrammar.Proofs.Items

/-!
# How scores flow from column to column

What a state with its dot moved on amounts to is what it was scanned with, plus, over every position
in between and every rule that can be completed there, what the state amounted to before it moved,
times the inner score of the completed phrase and the chains of unit rules that lead to it. Forward
and inner scores flow in the same way; they differ in what they start from.

> `Grown.amount_eq`: the equation for a column after the first.
-/

namespace StochasticGrammar

open scoped Classical

variable {K W : Type} [Field K] [LinearOrder K] [DecidableEq W] {solver : Solver K}
  {G : Grammar K W} {goal : Category} {value : W → K} {part : Cell K W → W}

/-- The rules that are no unit rules. -/
def Grammar.plainRules (G : Grammar K W) : Finset (Rule K W) :=
  (G.compiledRules.filter fun r => !G.isUnit r).toFinset

namespace Parser

/-- A complete state of a rule. -/
def done (k : Nat) (r : Rule K W) (l : Nat) : State K W :=
  ⟨l, r.rhs.length, k, r⟩

/-! ## Scanning -/

/-- What is scanned amounts to what it was before. -/
theorem Scanned.amount_eq (hG : G.Compiled solver) (hvalue : G.algebra.IsAdditive value)
    (hpart : IsScore G.algebra part) {k : Nat} {token : Payload} {prev base : Column K W}
    (hprev : Shaped G goal k prev) (h : Scanned G goal k token prev base) {s : State K W}
    (hs : ChartRule G goal s.rule) (hk : s.position = k) :
    amount G.algebra value part base (s.advance (k + 1))
      = if Takes G token s then amount G.algebra value part prev s else 0 := by
  by_cases hmem : s ∈ prev.states ∧ Takes G token s
  · obtain ⟨hmem, htakes⟩ := hmem
    obtain ⟨c, hc, rfl⟩ := mem_states.mp hmem
    have hbase : shifted G.algebra (k + 1) token c ∈ base := (h.mem _).mpr ⟨c, hc, htakes, rfl⟩
    rw [if_pos htakes, amount_of_mem hprev hc]
    refine (amount_of_mem h.shaped hbase).trans ?_
    rw [hpart.shifted, hvalue.value_zero_add]
  · have hno : s.advance (k + 1) ∉ base.states := by
      intro hin
      obtain ⟨c, hc, hstate⟩ := mem_states.mp hin
      obtain ⟨cell, hcell, htakes, rfl⟩ := (h.mem c).mp hc
      have heq : cell.state = s :=
        State.advance_inj (by rw [(hprev.fits cell hcell).position, hk]) hstate
      rw [heq] at htakes
      exact hmem ⟨mem_states.mpr ⟨cell, hcell, heq⟩, htakes⟩
    rw [amount_of_not_mem hG hvalue hpart h.shaped (s := s.advance (k + 1)) hs hno]
    by_cases htakes : Takes G token s
    · have hout : s ∉ prev.states := fun hin => hmem ⟨hin, htakes⟩
      rw [if_pos htakes, amount_of_not_mem hG hvalue hpart hprev hs hout]
    · rw [if_neg htakes]

/-! ## Moves -/

omit [DecidableEq W] in
theorem value_foldl_receive (hvalue : G.algebra.IsAdditive value) (hpart : IsScore G.algebra part)
    (log : List (Move K W)) (c : Cell K W) :
    value (part (log.foldl (Move.receive G.algebra) c))
      = value (part c) + (log.map fun m => value (part m.cell) * value m.factor).sum := by
  induction log generalizing c with
  | nil => simp
  | cons m log ih =>
    rw [List.foldl_cons, ih, hpart.receive, hvalue.add, hvalue.mul, List.map_cons, List.sum_cons,
      add_assoc]

/-- What a log of moves adds to a state. -/
theorem Filled.amount_eq (hvalue : G.algebra.IsAdditive value) (hpart : IsScore G.algebra part)
    {k : Nat} {base col : Column K W} {log : List (Move K W)} (h : Filled G goal k base log col)
    {t : State K W} (ht : ChartRule G goal t.rule) :
    amount G.algebra value part col t = amount G.algebra value part base t
      + (log.map fun m =>
          if m.target k = t then value (part m.cell) * value m.factor else 0).sum := by
  unfold amount
  rw [h.cell t ht, value_foldl_receive hvalue hpart,
    sum_map_filter fun m : Move K W => m.target k = t]

/-- What the cells that wait for a name contribute, over the states of their column. -/
theorem sum_waiting (hG : G.Compiled solver) {l : Nat} {col : Column K W}
    (hcol : Shaped G goal l col) {x : Category} (hx : x ∈ G.names) (f : State K W → K) :
    ((col.waiting x).map fun c => f c.state * value (part c)).sum
      = ∑ s ∈ col.states.toFinset,
          if s.next? = some x then f s * amount G.algebra value part col s else 0 := by
  have hshaped : Shaped G goal l (col.waiting x) := hcol.filter _
  have hmem : ∀ c, c ∈ col.waiting x ↔ c ∈ col ∧ c.state.next? = some x :=
    fun c => mem_waiting (hG.names_plain hx)
  rw [hshaped.sum_cells fun s v => f s * v, ← Finset.sum_filter]
  refine Finset.sum_congr ?_ fun s hs => ?_
  · ext s
    rw [Finset.mem_filter, List.mem_toFinset, List.mem_toFinset, mem_states, mem_states]
    constructor
    · rintro ⟨c, hc, rfl⟩
      obtain ⟨hc, hnext⟩ := (hmem c).mp hc
      exact ⟨⟨c, hc, rfl⟩, hnext⟩
    · rintro ⟨⟨c, hc, rfl⟩, hnext⟩
      exact ⟨c, (hmem c).mpr ⟨hc, hnext⟩, rfl⟩
  · obtain ⟨hs, hnext⟩ := Finset.mem_filter.mp hs
    obtain ⟨c, hc, rfl⟩ := mem_states.mp (List.mem_toFinset.mp hs)
    rw [amount_of_mem hcol hc, amount_of_mem hshaped ((hmem c).mpr ⟨hc, hnext⟩)]

variable [IsStrictOrderedRing K]

/-- **What the moves over a complete state bring along**, over the states that wait at its
origin. -/
theorem sum_moves (hG : G.Compiled solver) (hvalue : G.algebra.IsAdditive value)
    {past : List (Column K W)} (hpast : PastShaped G goal past) (d : State K W) (inner : W)
    (f : State K W → K) :
    ((moves G past d inner).map fun m =>
        f m.cell.state * (value (part m.cell) * value m.factor)).sum
      = (∑ x ∈ G.names.toFinset, value (G.unitScore x d.rule.lhs)
          * ∑ s ∈ (pastColumn past d.origin).states.toFinset, if s.next? = some x then
              f s * amount G.algebra value part (pastColumn past d.origin) s else 0)
        * value inner := by
  -- one source: its cells that wait, scaled
  have hsource : ∀ source ∈ G.unitSources d.rule.lhs,
      ((((pastColumn past d.origin).waiting source.1).map fun cell =>
          (⟨cell, G.algebra.mul source.2 inner⟩ : Move K W)).map fun m =>
            f m.cell.state * (value (part m.cell) * value m.factor)).sum
        = value source.2 * ((∑ s ∈ (pastColumn past d.origin).states.toFinset,
            if s.next? = some source.1 then
              f s * amount G.algebra value part (pastColumn past d.origin) s else 0)
          * value inner) := by
    rintro ⟨y, w⟩ hmem
    obtain ⟨hlhs, hchain⟩ := hG.mem_unitSources.mp ⟨w, hmem⟩
    rw [← sum_waiting hG (hpast d.origin) (hG.mem_names_of_unitStep hlhs hchain) f,
      List.map_map, ← List.sum_map_mul_right, ← List.sum_map_mul_left]
    congr 1
    refine List.map_congr_left fun cell _ => ?_
    show f cell.state * (value (part cell) * value (G.algebra.mul w inner)) = _
    rw [hvalue.mul]
    ring
  rw [moves, sum_map_flatMap, List.map_congr_left hsource]
  by_cases hlhs : d.rule.lhs ∈ G.names
  · rw [hG.sum_unitSources hvalue hlhs fun y => (∑ s ∈ (pastColumn past d.origin).states.toFinset,
      if s.next? = some y then
        f s * amount G.algebra value part (pastColumn past d.origin) s
      else 0) * value inner, Finset.sum_mul]
    simp only [mul_assoc]
  · have hnil : G.unitSources d.rule.lhs = [] := by
      refine List.eq_nil_iff_forall_not_mem.mpr fun source hmem => ?_
      exact hlhs (hG.mem_unitSources.mp ⟨source.2, hmem⟩).1
    rw [hnil]
    simp only [hG.unitScore_of_not_mem (Or.inr hlhs), hvalue.zero, zero_mul, Finset.sum_const_zero,
      List.map_nil, List.sum_nil]

/-- What the moves over a complete state add to a state. -/
theorem sum_moves_to (hG : G.Compiled solver) (hvalue : G.algebra.IsAdditive value)
    (hpart : IsScore G.algebra part) {past : List (Column K W)} (hpast : PastShaped G goal past)
    {k : Nat} (d : State K W) (inner : W) {s : State K W} (hs : ChartRule G goal s.rule)
    (hl : s.position = d.origin) {x : Category} (hx : s.next? = some x) :
    ((moves G past d inner).map fun m =>
        if m.target k = s.advance k then value (part m.cell) * value m.factor else 0).sum
      = value (G.unitScore x d.rule.lhs) * amount G.algebra value part (pastColumn past d.origin) s
          * value inner := by
  have hcol := hpast d.origin
  -- no other state of the column moves to the same one
  have honly : ∀ y, (∑ u ∈ (pastColumn past d.origin).states.toFinset, if u.next? = some y then
      (if u.advance k = s.advance k then 1 else 0)
        * amount G.algebra value part (pastColumn past d.origin) u else 0)
      = if x = y then amount G.algebra value part (pastColumn past d.origin) s else 0 := by
    intro y
    rw [Finset.sum_eq_single s]
    · simp only [hx, Option.some.injEq, if_pos, one_mul]
    · intro u hu hne
      obtain ⟨c, hc, rfl⟩ := mem_states.mp (List.mem_toFinset.mp hu)
      have hpos : c.state.position = s.position := by rw [(hcol.fits c hc).position, hl]
      rw [if_neg fun heq => hne (State.advance_inj hpos heq), zero_mul, ite_self]
    · intro hout
      rw [amount_of_not_mem hG hvalue hpart hcol hs fun hin => hout (List.mem_toFinset.mpr hin),
        mul_zero, ite_self]
  have hsum : ((moves G past d inner).map fun m => (if m.cell.state.advance k = s.advance k then 1
      else 0) * (value (part m.cell) * value m.factor)).sum = _ :=
    sum_moves hG hvalue hpast d inner fun u => if u.advance k = s.advance k then 1 else 0
  simp only [honly] at hsum
  simp only [mul_ite, mul_zero, Finset.sum_ite_eq, ite_mul, one_mul, zero_mul] at hsum
  refine hsum.trans ?_
  split
  · rfl
  · rename_i hout
    rw [hG.unitScore_of_not_mem (Or.inl fun hin => hout (List.mem_toFinset.mpr hin)), hvalue.zero,
      zero_mul, zero_mul]

/-! ## Completed phrases -/

omit [IsStrictOrderedRing K] in
theorem mem_plainRules (hG : G.Compiled solver) {r : Rule K W} :
    r ∈ G.plainRules ↔ G.Uses r ∧ G.isUnit r = false := by
  unfold Grammar.plainRules
  rw [List.mem_toFinset, List.mem_filter, hG.mem_compiledRules_iff_uses, Bool.not_eq_true']

omit [IsStrictOrderedRing K] in
/-- A pending state is a complete one of a rule that is no unit rule, at an earlier position. -/
theorem Completed.mem_order_iff {past : List (Column K W)} {k : Nat} {base col : Column K W}
    {order : List (State K W)} (h : Completed G goal past k base col order) {d : State K W} :
    d ∈ order ↔ d ∈ col.states ∧ d.origin < k ∧ G.isUnit d.rule = false ∧
      d = done k d.rule d.origin := by
  rw [h.mem_order]
  refine and_congr_right fun hmem => ?_
  obtain ⟨c, hc, rfl⟩ := mem_states.mp hmem
  have hfits := h.filled.shaped.fits c hc
  constructor
  · intro hpending
    obtain ⟨hcomplete, horigin, hunit⟩ := origin_lt_of_isPending hpending
    refine ⟨horigin, hunit, ?_⟩
    unfold done
    rw [← hfits.dot_eq_of_isComplete hcomplete, ← hfits.position]
  · rintro ⟨horigin, hunit, hdone⟩
    have hdot : c.state.dot = c.state.rule.rhs.length := congrArg State.dot hdone
    simp [isPending, State.isComplete, hdot, horigin, hunit]

omit [IsStrictOrderedRing K] in
/-- **What completed phrases contribute**, over all positions and all rules that are no unit
rules. -/
theorem Completed.sum_order (hG : G.Compiled solver) (hvalue : G.algebra.IsAdditive value)
    {past : List (Column K W)} {k : Nat} {base col : Column K W} {order : List (State K W)}
    (h : Completed G goal past k base col order) (f : Nat → Rule K W → K)
    (hname : ∀ l r, r.lhs ∉ G.names → f l r = 0) :
    (order.map fun d => f d.origin d.rule * amount G.algebra value Cell.inner col d).sum
      = ∑ l ∈ Finset.range k, ∑ r ∈ G.plainRules,
          f l r * amount G.algebra value Cell.inner col (done k r l) := by
  have hcol := h.filled.shaped
  rw [← List.sum_toFinset _ h.nodup, ← Finset.sum_product',
    ← Finset.sum_filter_of_ne (p := fun d : State K W => d.rule.lhs ∈ G.names)]
  · -- the states of names are told apart by their origin and their rule
    refine Finset.sum_of_injOn (fun d => (d.origin, d.rule)) ?_ ?_ ?_ ?_
    · intro d hd d' hd' heq
      have hd := List.mem_toFinset.mp (Finset.mem_filter.mp hd).1
      have hd' := List.mem_toFinset.mp (Finset.mem_filter.mp hd').1
      have horigin : d.origin = d'.origin := congrArg Prod.fst heq
      have hrule : d.rule = d'.rule := congrArg Prod.snd heq
      rw [(h.mem_order_iff.mp hd).2.2.2, (h.mem_order_iff.mp hd').2.2.2, horigin, hrule]
    · intro d hd
      obtain ⟨hd, hlhs⟩ := Finset.mem_filter.mp hd
      obtain ⟨hmem, horigin, hunit, _⟩ := h.mem_order_iff.mp (List.mem_toFinset.mp hd)
      obtain ⟨c, hc, rfl⟩ := mem_states.mp hmem
      have hne := hG.ne_start_of_mem_names hlhs
      obtain ⟨q, hq, hrule⟩ := (hcol.fits c hc).rule.uses hG hne
      exact Finset.mem_product.mpr ⟨Finset.mem_range.mpr horigin,
        (mem_plainRules hG).mpr ⟨⟨_, q, hq, hrule⟩, hunit⟩⟩
    · rintro ⟨l, r⟩ hmem hout
      obtain ⟨hl, hr⟩ := Finset.mem_product.mp hmem
      obtain ⟨⟨x, q, hq, rfl⟩, hunit⟩ := (mem_plainRules hG).mp hr
      rw [amount_of_not_mem hG hvalue (isScore_inner _) hcol (s := done k q.rule l) (.used hq),
        mul_zero]
      intro hin
      refine hout ⟨done k q.rule l, Finset.mem_coe.mpr (Finset.mem_filter.mpr ⟨?_, ?_⟩), rfl⟩
      · exact List.mem_toFinset.mpr
          (h.mem_order_iff.mpr ⟨hin, Finset.mem_range.mp hl, hunit, rfl⟩)
      · show q.rule.lhs ∈ G.names
        rw [(hG.isSound hq).lhs]
        exact hG.isNonterminal_iff.mp (hG.isSound hq).nonterminal
    · intro d hd
      have hd := List.mem_toFinset.mp (Finset.mem_filter.mp hd).1
      show _ = f d.origin d.rule * amount G.algebra value Cell.inner col (done k d.rule d.origin)
      rw [← (h.mem_order_iff.mp hd).2.2.2]
  · intro d _ hne
    by_contra hout
    exact hne (by rw [hname _ _ hout, zero_mul])

/-! ## Columns -/

/-- What a completed column amounts to at a state whose dot has moved. -/
theorem Completed.amount_eq (hG : G.Compiled solver) (hvalue : G.algebra.IsAdditive value)
    (hpart : IsScore G.algebra part) {past : List (Column K W)} (hpast : PastShaped G goal past)
    {k : Nat} {base col : Column K W} {order : List (State K W)}
    (h : Completed G goal past k base col order) {i n : Nat} {r : Rule K W}
    (hr : ChartRule G goal r) {x : Category} (hx : r.rhs[n]? = some x) :
    amount G.algebra value part col ⟨i, n + 1, k, r⟩
      = amount G.algebra value part base ⟨i, n + 1, k, r⟩
        + ∑ l ∈ Finset.range k, amount G.algebra value part (pastColumn past l) ⟨i, n, l, r⟩
          * ∑ r' ∈ G.plainRules, value (G.unitScore x r'.lhs)
            * amount G.algebra value Cell.inner col (done k r' l) := by
  rw [h.filled.amount_eq hvalue hpart (t := ⟨i, n + 1, k, r⟩) hr, sum_map_flatMap]
  congr 1
  have hmoves : ∀ d ∈ order, ((moves G past d (col.inner G.algebra d)).map fun m =>
        if m.target k = ⟨i, n + 1, k, r⟩ then value (part m.cell) * value m.factor else 0).sum
      = value (G.unitScore x d.rule.lhs)
          * amount G.algebra value part (pastColumn past d.origin) ⟨i, n, d.origin, r⟩
        * amount G.algebra value Cell.inner col d := by
    intro d _
    rw [Column.inner_eq_cell]
    exact sum_moves_to hG hvalue hpart hpast d _ (s := ⟨i, n, d.origin, r⟩) hr rfl hx
  rw [List.map_congr_left hmoves, h.sum_order hG hvalue fun l r' => value (G.unitScore x r'.lhs)
    * amount G.algebra value part (pastColumn past l) ⟨i, n, l, r⟩]
  · refine Finset.sum_congr rfl fun l _ => ?_
    rw [Finset.mul_sum]
    refine Finset.sum_congr rfl fun r' _ => ?_
    ring
  · intro l r' hout
    rw [hG.unitScore_of_not_mem (Or.inr hout), hvalue.zero, zero_mul]

omit [IsStrictOrderedRing K] in
/-- Prediction changes nothing that has found something. -/
theorem Grown.amount_mid (hG : G.Compiled solver) (hvalue : G.algebra.IsAdditive value)
    (hpart : IsScore G.algebra part) {past : List (Column K W)} {k : Nat} {token : Payload}
    {base mid col : Column K W} {order : List (State K W)}
    (h : Grown G goal past k token base mid col order) {s : State K W}
    (hs : ChartRule G goal s.rule) (hdot : s.dot ≠ 0) :
    amount G.algebra value part col s = amount G.algebra value part mid s := by
  have hmid := h.completed.filled.shaped
  have hbest := shaped_of_core_eq h.core.symm hmid
  rw [← amount_of_core_eq hG hvalue hpart h.core hbest hs]
  by_cases hmem : s ∈ (completeBest G.algebra past (k + 1) mid).states
  · obtain ⟨c, hc, rfl⟩ := mem_states.mp hmem
    rw [amount_of_mem hbest hc, amount_of_mem h.predicted.shaped (h.predicted.keeps c hc)]
  · rw [amount_of_not_mem hG hvalue hpart hbest hs hmem,
      amount_of_not_mem hG hvalue hpart h.predicted.shaped hs]
    intro hin
    obtain ⟨c, hc, rfl⟩ := mem_states.mp hin
    rcases h.predicted.cases c hc with hc | ⟨_, _, q, _, hq⟩
    · exact hmem (mem_states.mpr ⟨c, hc, rfl⟩)
    · rw [hq.state] at hdot
      exact hdot rfl

/-- **How scores flow into a column.** -/
theorem Grown.amount_eq (hG : G.Compiled solver) (hvalue : G.algebra.IsAdditive value)
    (hpart : IsScore G.algebra part) {past : List (Column K W)} (hpast : PastShaped G goal past)
    {k : Nat} {token : Payload} {base mid col : Column K W} {order : List (State K W)}
    (h : Grown G goal past k token base mid col order) {i n : Nat} {r : Rule K W}
    (hr : ChartRule G goal r) {x : Category} (hx : r.rhs[n]? = some x) :
    amount G.algebra value part col ⟨i, n + 1, k + 1, r⟩
      = (if G.isTerminal x = true ∧ x.accepts token = .ok true then
          amount G.algebra value part (pastColumn past k) ⟨i, n, k, r⟩ else 0)
        + ∑ l ∈ Finset.range (k + 1),
          amount G.algebra value part (pastColumn past l) ⟨i, n, l, r⟩
          * ∑ r' ∈ G.plainRules, value (G.unitScore x r'.lhs)
            * amount G.algebra value Cell.inner col (done (k + 1) r' l) := by
  have hscanned := h.scanned.amount_eq hG hvalue hpart (hpast k) (s := ⟨i, n, k, r⟩) hr rfl
  have htakes : Takes G token ⟨i, n, k, r⟩ ↔ G.isTerminal x = true ∧
      x.accepts token = .ok true := by
    constructor
    · rintro ⟨c, hc, hterm, haccepts⟩
      cases hx.symm.trans hc
      exact ⟨hterm, haccepts⟩
    · rintro ⟨hterm, haccepts⟩
      exact ⟨x, hx, hterm, haccepts⟩
  -- prediction leaves complete phrases alone
  have hinner : ∀ r' ∈ G.plainRules, ∀ l,
      amount G.algebra value Cell.inner mid (done (k + 1) r' l)
        = amount G.algebra value Cell.inner col (done (k + 1) r' l) := by
    intro r' hr' l
    obtain ⟨⟨y, q, hq, rfl⟩, _⟩ := (mem_plainRules hG).mp hr'
    refine (h.amount_mid hG hvalue (isScore_inner _) (s := done (k + 1) q.rule l)
      (.used hq) ?_).symm
    exact fun hdot => (hG.isSound hq).rhs_ne (List.length_eq_zero_iff.mp hdot)
  rw [h.amount_mid hG hvalue hpart (s := ⟨i, n + 1, k + 1, r⟩) hr (Nat.succ_ne_zero n),
    h.completed.amount_eq hG hvalue hpart hpast hr hx]
  congr 1
  · refine hscanned.trans ?_
    rw [if_congr htakes rfl rfl]
  · refine Finset.sum_congr rfl fun l _ => ?_
    congr 1
    exact Finset.sum_congr rfl fun r' hr' => by rw [hinner r' hr' l]

/-! ## Where scores start from -/

section Run

variable {tokens : List Payload} {columns : List (Column K W)}

omit [IsStrictOrderedRing K] in
/-- A position that holds a state is one of the tokens', or the one behind them. -/
theorem Run.le_length_of_mem {goal : Category} (h : Run G goal tokens columns) {k : Nat}
    {s : State K W} (hs : s ∈ statesAt columns k) : k ≤ tokens.length := by
  by_contra hlt
  rw [h.statesAt_of_ge (by omega)] at hs
  cases hs

/-- **Inner scores start from the weight of the rule.** -/
theorem Run.inner_predicted (hG : G.Compiled solver) (hvalue : G.algebra.IsAdditive value)
    (h : Run G goal tokens columns) {k : Nat} {r : Rule K W}
    (hmem : .predicted r k ∈ statesAt columns k) :
    amount G.algebra value Cell.inner (pastColumn columns k) (.predicted r k) = value r.weight := by
  obtain ⟨c, hc, hstate⟩ := mem_states.mp hmem
  have hpredicted : ∀ {q : Production K W}, IsPredicted G.algebra k q c →
      value c.inner = value r.weight := by
    intro q hq
    have hrule : q.rule = r := congrArg State.rule (hq.state.symm.trans hstate)
    rw [hq.inner, hvalue.value_zero_add, hrule]
  rw [← hstate, amount_of_mem (h.pastShaped hG k) hc]
  cases k with
  | zero =>
    obtain ⟨base, hseeded, hcol⟩ := h.seeded hG
    have hseed : ∀ q, c = seedCell G.algebra q → value c.inner = value r.weight := by
      rintro q rfl
      have hrule : q.rule = r := congrArg State.rule hstate
      rw [← hrule]
      exact hvalue.value_zero_add q.rule.weight
    rcases hcol.cases c hc with hbase | ⟨_, _, q, _, hq⟩
    · rcases (hseeded.mem c).mp hbase with hstart | ⟨_, q, _, hempty⟩
      · exact hseed _ hstart
      · exact hseed q hempty
    · exact hpredicted hq
  | succ k =>
    have hlt : k < tokens.length := h.le_length_of_mem hmem
    obtain ⟨base, mid, order, hgrown⟩ := h.grown hG (List.getElem?_eq_getElem hlt)
    rcases hgrown.predicted.cases c hc with hmid | ⟨_, _, q, _, hq⟩
    · -- what was there before prediction has found something
      have hdot := hgrown.kernel c.state
        (states_eq_of_core_eq hgrown.core ▸ mem_states.mpr ⟨c, hmid, rfl⟩)
      rw [hstate] at hdot
      exact absurd rfl hdot
    · exact hpredicted hq

/-- A state that cannot stand at a position amounts to nothing there. -/
theorem Run.amount_of_not_fits (hG : G.Compiled solver) (hvalue : G.algebra.IsAdditive value)
    (hpart : IsScore G.algebra part) (h : Run G goal tokens columns) {k : Nat} {s : State K W}
    (hs : ChartRule G goal s.rule) (hno : ¬ Fits G goal k s) :
    amount G.algebra value part (pastColumn columns k) s = 0 := by
  refine amount_of_not_mem hG hvalue hpart (h.pastShaped hG k) hs fun hmem => hno ?_
  obtain ⟨c, hc, rfl⟩ := mem_states.mp hmem
  exact (h.pastShaped hG k).fits c hc

theorem Run.pastShaped_take (hG : G.Compiled solver) (h : Run G goal tokens columns) (k : Nat) :
    PastShaped G goal (columns.take k) := by
  intro l
  rcases Nat.lt_or_ge l k with hl | hl
  · rw [pastColumn_take hl]
    exact h.pastShaped hG l
  · rw [pastColumn_of_ge (Nat.le_trans (List.length_take_le _ _) hl)]
    exact .nil l

/-- **How scores flow through a run.** -/
theorem Run.amount_succ (hG : G.Compiled solver) (hvalue : G.algebra.IsAdditive value)
    (hpart : IsScore G.algebra part) (h : Run G goal tokens columns) {k : Nat} {token : Payload}
    (hk : tokens[k]? = some token) {i n : Nat} {r : Rule K W} (hr : ChartRule G goal r)
    {x : Category} (hx : r.rhs[n]? = some x) :
    amount G.algebra value part (pastColumn columns (k + 1)) ⟨i, n + 1, k + 1, r⟩
      = (if G.isTerminal x = true ∧ x.accepts token = .ok true then
          amount G.algebra value part (pastColumn columns k) ⟨i, n, k, r⟩ else 0)
        + ∑ l ∈ Finset.range (k + 1),
          amount G.algebra value part (pastColumn columns l) ⟨i, n, l, r⟩
          * ∑ r' ∈ G.plainRules, value (G.unitScore x r'.lhs)
            * amount G.algebra value Cell.inner (pastColumn columns (k + 1))
                (done (k + 1) r' l) := by
  obtain ⟨base, mid, order, hgrown⟩ := h.grown hG hk
  have hpast : PastShaped G goal (columns.take (k + 1)) := h.pastShaped_take hG (k + 1)
  rw [hgrown.amount_eq hG hvalue hpart hpast hr hx, pastColumn_take (Nat.lt_succ_self k)]
  congr 1
  refine Finset.sum_congr rfl fun l hl => ?_
  rw [pastColumn_take (Finset.mem_range.mp hl)]

/-- What moves over a token keeps its scores: no phrase is moved over besides. -/
theorem Run.amount_token (hG : G.Compiled solver) (hvalue : G.algebra.IsAdditive value)
    (hpart : IsScore G.algebra part) (h : Run G goal tokens columns) {k : Nat} {token : Payload}
    (hk : tokens[k]? = some token) {i n : Nat} {r : Rule K W} (hr : ChartRule G goal r)
    {x : Category} (hx : r.rhs[n]? = some x) (hterm : G.isTerminal x = true) :
    amount G.algebra value part (pastColumn columns (k + 1)) ⟨i, n + 1, k + 1, r⟩
      = if x.accepts token = .ok true then
          amount G.algebra value part (pastColumn columns k) ⟨i, n, k, r⟩ else 0 := by
  have hout : x ∉ G.names := fun hmem => hG.not_isTerminal_of_mem hmem hterm
  rw [h.amount_succ hG hvalue hpart hk hr hx]
  simp only [hG.unitScore_of_not_mem (Or.inl hout), hvalue.zero, zero_mul, Finset.sum_const_zero,
    mul_zero, add_zero, hterm, true_and]

end Run

end Parser
end StochasticGrammar
