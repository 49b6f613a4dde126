import StochasticGrammar.Proofs.Chains
import StochasticGrammar.Proofs.Run

/-!
# The shape of a chart

Which rules a chart is built from, and what spans their states can have. A state that has found
nothing stands where it starts, and a state that has found something spans something, since no rule
but the empty start rule has an empty right side. That is why a complete state never waits for
itself, and why the only complete states with an empty span are those of the start symbol.

> `discrete_chartRule`: the rules of a chart are told apart by `==`.

> `Fits`, `Shaped`: what every phase of the parser keeps about states and columns.
-/

namespace StochasticGrammar

variable {P W : Type}

/-! ## Advancing -/

namespace State

/-- What a state waits for stands behind its dot. -/
theorem next?_eq_some {s : State P W} {c : Category} (h : s.next? = some c) :
    s.dot < s.rule.rhs.length ∧
      s.rule.rhs = s.rule.rhs.take s.dot ++ c :: s.rule.rhs.drop (s.dot + 1) := by
  obtain ⟨hlt, hget⟩ := List.getElem?_eq_some_iff.mp h
  refine ⟨hlt, ?_⟩
  rw [← hget, List.getElem_cons_drop, List.take_append_drop]

/-- What a state that was moved to says about the one that moved. -/
theorem of_advance_eq {s t : State P W} {k : Nat} (h : s.advance k = t) :
    s.origin = t.origin ∧ s.dot + 1 = t.dot ∧ s.rule = t.rule := by
  subst h
  exact ⟨rfl, rfl, rfl⟩

/-- States of one position that move to the same state are the same. -/
theorem advance_beq [DecidableEq P] [DecidableEq W] {s t : State P W}
    (hpos : s.position = t.position) (k : Nat) : (s.advance k == t.advance k) = (s == t) := by
  rw [Bool.eq_iff_iff, State.beq_iff, State.beq_iff]
  simp [advance, hpos]

/-- Different states of one position move to different states. -/
theorem advance_inj {s t : State P W} (hpos : s.position = t.position) {k : Nat}
    (h : s.advance k = t.advance k) : s = t := by
  cases s
  cases t
  simp_all [advance]

end State

namespace Parser

variable [Probability P]

/-! ## Rules of a chart -/

/-- What the empty start production consists of. -/
theorem emptyStart_eq_ok {G : Grammar P W} {goal : Category} {q : Production P W}
    (h : emptyStart G goal = .ok q) :
    q = ⟨.derived ⟨⟨.plain, .start, []⟩, G.emptyProbability goal,
        G.algebra.ofProbability (G.emptyProbability goal), [0], 0⟩ (startRule G.algebra goal),
      G.algebra.ofProbability (G.bestEmptyProbability goal)⟩ := by
  unfold emptyStart at h
  obtain ⟨rule, hrule, h⟩ := bind_eq_ok.mp h
  unfold Rule.make at hrule
  split at hrule
  · cases hrule
    cases h
    rfl
  · cases hrule

theorem isProper_of_emptyStart {G : Grammar P W} {goal : Category} {q : Production P W}
    (h : emptyStart G goal = .ok q) : Probability.IsProper (G.emptyProbability goal) := by
  obtain ⟨rule, hrule, _⟩ := bind_eq_ok.mp h
  unfold Rule.make at hrule
  split at hrule
  · rename_i hproper
    exact hproper
  · cases hrule

/-- A rule that a chart for a category may be built from. -/
inductive ChartRule (G : Grammar P W) (goal : Category) : Rule P W → Prop
  | start : ChartRule G goal (startRule G.algebra goal)
  | empty {q : Production P W} (hnull : G.isNullable goal = true)
      (hq : emptyStart G goal = .ok q) : ChartRule G goal q.rule
  | used {x : Category} {q : Production P W} (hq : q ∈ G.productionsOf x) : ChartRule G goal q.rule

variable {G : Grammar P W} {goal : Category}

/-! ## Spans -/

/-- A state of a chart that ends at a position. -/
structure Fits (G : Grammar P W) (goal : Category) (k : Nat) (s : State P W) : Prop where
  rule : ChartRule G goal s.rule
  position : s.position = k
  dot_le : s.dot ≤ s.rule.rhs.length
  /-- A state that has found nothing stands where it starts. -/
  origin_eq : s.dot = 0 → s.origin = k
  /-- A state that has found something spans something. -/
  origin_lt : 0 < s.dot → s.origin < k
  start_origin : s.rule.lhs = .start → s.origin = 0

namespace Fits

variable {k : Nat} {s : State P W}

theorem origin_le (h : Fits G goal k s) : s.origin ≤ k := by
  rcases Nat.eq_zero_or_pos s.dot with hdot | hdot
  · exact Nat.le_of_eq (h.origin_eq hdot)
  · exact Nat.le_of_lt (h.origin_lt hdot)

/-- A state has found something if and only if it began earlier. -/
theorem dot_pos_iff (h : Fits G goal k s) : 0 < s.dot ↔ s.origin < k := by
  refine ⟨h.origin_lt, fun hlt => Nat.pos_of_ne_zero fun hdot => ?_⟩
  have := h.origin_eq hdot
  omega

theorem dot_eq_of_isComplete (h : Fits G goal k s) (hc : s.isComplete = true) :
    s.dot = s.rule.rhs.length := by
  have hle := h.dot_le
  have hge : s.rule.rhs.length ≤ s.dot := by simpa [State.isComplete] using hc
  omega

/-- A state that waits moves to a state that fits a later position. -/
theorem advance (h : Fits G goal k s) {c : Category} (hc : s.next? = some c) {l : Nat}
    (hl : k < l) :
    Fits G goal l (s.advance l) where
  rule := h.rule
  position := rfl
  dot_le := (State.next?_eq_some hc).1
  origin_eq := fun hdot => absurd hdot (Nat.succ_ne_zero _)
  origin_lt := fun _ => Nat.lt_of_le_of_lt h.origin_le hl
  start_origin := h.start_origin

end Fits

variable [DecidableEq P] [DecidableEq W] {solver : Solver P}

/-! ## Telling rules apart -/

theorem lhs_ne_start_of_used (hG : G.Compiled solver) {x : Category} {q : Production P W}
    (hq : q ∈ G.productionsOf x) : q.rule.lhs ≠ .start := by
  rw [(hG.isSound hq).lhs]
  exact (hG.isSound hq).lhs_ne_start

/-- Every rule of the chart but that of the start symbol is a production. -/
theorem ChartRule.uses (hG : G.Compiled solver) {r : Rule P W} (h : ChartRule G goal r)
    (hlhs : r.lhs ≠ .start) : ∃ q ∈ G.productionsOf r.lhs, q.rule = r := by
  cases h with
  | start => exact absurd rfl hlhs
  | empty hnull hq =>
    rw [emptyStart_eq_ok hq] at hlhs
    exact absurd rfl hlhs
  | used hq => exact ⟨_, by rw [(hG.isSound hq).lhs]; exact hq, rfl⟩

/-- Nothing calls for the start symbol. -/
theorem ChartRule.start_not_mem (hG : G.Compiled solver) (hgoal : goal ≠ .start) {r : Rule P W}
    (h : ChartRule G goal r) : .start ∉ r.rhs := by
  cases h with
  | start =>
    intro hmem
    exact hgoal (List.mem_singleton.mp hmem).symm
  | empty hnull hq =>
    rw [emptyStart_eq_ok hq]
    exact List.not_mem_nil
  | used hq => exact (hG.isSound hq).start_not_mem

/-- **The rules of a chart are told apart.** -/
theorem discrete_chartRule (hG : G.Compiled solver) : Discrete (ChartRule G goal) := by
  intro a b ha hb hab
  have hhead := Rule.head_beq_of_canonical_eq ((Rule.beq_iff_canonical_eq a b).mp hab)
  rw [RuleHead.beq_iff_canonical_eq] at hhead
  have hlhs : a.lhs.canonical = b.lhs.canonical := congrArg RuleHead.lhs hhead
  have hlen : a.rhs.length = b.rhs.length := by
    simpa [RuleHead.canonical, Rule.rhs] using congrArg (fun h => h.rhs.length) hhead
  have hstart : ∀ {c : Category}, c.canonical = .start → c = .start := by
    intro c hc
    cases c <;> simp_all [Category.canonical]
  -- the two rules of the start symbol differ in length, and no other rule has their left side
  cases ha with
  | start =>
    cases hb with
    | start => rfl
    | empty hnull hq =>
      rw [emptyStart_eq_ok hq] at hlen
      cases hlen
    | used hq => exact absurd (hstart hlhs.symm) (lhs_ne_start_of_used hG hq)
  | empty hnull hq =>
    cases hb with
    | start =>
      rw [emptyStart_eq_ok hq] at hlen
      cases hlen
    | empty hnull hq' =>
      rw [hq] at hq'
      cases hq'
      rfl
    | used hq' =>
      rw [emptyStart_eq_ok hq] at hlhs
      exact absurd (hstart hlhs.symm) (lhs_ne_start_of_used hG hq')
  | used hq =>
    cases hb with
    | start => exact absurd (hstart hlhs) (lhs_ne_start_of_used hG hq)
    | empty hnull hq' =>
      rw [emptyStart_eq_ok hq'] at hlhs
      exact absurd (hstart hlhs) (lhs_ne_start_of_used hG hq)
    | used hq' => exact hG.discrete_uses _ _ ⟨_, _, hq, rfl⟩ ⟨_, _, hq', rfl⟩ hab

namespace Fits

variable {k : Nat} {s : State P W}

/-- A predicted production fits everywhere. -/
theorem predicted (hG : G.Compiled solver) {x : Category} {q : Production P W}
    (hq : q ∈ G.productionsOf x) (k : Nat) : Fits G goal k (State.predicted q.rule k) where
  rule := .used hq
  position := rfl
  dot_le := Nat.zero_le _
  origin_eq := fun _ => rfl
  origin_lt := fun hdot => absurd hdot (Nat.lt_irrefl 0)
  start_origin := fun hlhs => absurd hlhs (lhs_ne_start_of_used hG hq)

/-- What follows the dot is a symbol that a category is waited for with. -/
theorem next_ne_start (hG : G.Compiled solver) (hgoal : goal ≠ .start) (h : Fits G goal k s)
    {c : Category} (hc : s.next? = some c) : c ≠ .start := by
  rintro rfl
  refine h.rule.start_not_mem hG hgoal ?_
  rw [(State.next?_eq_some hc).2]
  exact List.mem_append_right _ List.mem_cons_self

end Fits

/-! ## Columns -/

/-- A column at a position: every state once, and every state fits. -/
structure Shaped (G : Grammar P W) (goal : Category) (k : Nat) (col : Column P W) : Prop where
  distinct : col.Distinct
  fits : ∀ c ∈ col, Fits G goal k c.state

namespace Shaped

variable {k : Nat} {col : Column P W}

theorem nil (k : Nat) : Shaped G goal k [] :=
  ⟨List.Pairwise.nil, fun c hc => (by cases hc)⟩

/-- A shaped column contains a state when one of its cells has it. -/
theorem contains_iff (hG : G.Compiled solver) (h : Shaped G goal k col) {s : State P W}
    (hs : ChartRule G goal s.rule) : col.contains s = true ↔ ∃ c ∈ col, c.state = s :=
  Column.contains_iff_mem (discrete_chartRule hG) (fun c hc => (h.fits c hc).rule) hs

/-- A state over a rule of the chart is contained in a column if and only if it is a state of it. -/
theorem contains_iff_mem_states (hG : G.Compiled solver) (h : Shaped G goal k col) {s : State P W}
    (hs : ChartRule G goal s.rule) : col.contains s = true ↔ s ∈ col.states := by
  rw [h.contains_iff hG hs, Column.states, List.mem_map]

/-- An alteration adds its state, if it is not there, and no other. -/
theorem mem_states_alter (hG : G.Compiled solver) (h : Shaped G goal k col) {t : State P W}
    (ht : ChartRule G goal t.rule) {f : Cell P W → Cell P W} (hf : ∀ c, (f c).state = c.state)
    (s : State P W) :
    s ∈ Column.states (col.alter G.algebra t f) ↔ s ∈ col.states ∨ s = t := by
  rw [Column.states_alter G.algebra hf]
  by_cases hany : col.states.any (· == t) = true
  · rw [if_pos hany]
    refine ⟨Or.inl, fun hs => hs.elim id fun heq => ?_⟩
    obtain ⟨u, hu, hut⟩ := List.any_eq_true.mp hany
    obtain ⟨c, hc, rfl⟩ := List.mem_map.mp hu
    rw [heq, ← h.contains_iff_mem_states hG ht]
    exact Column.contains_iff.mpr ⟨c, hc, hut⟩
  · rw [if_neg hany, List.mem_append, List.mem_singleton]

/-- An alteration at a state that fits keeps the shape. -/
theorem alter (h : Shaped G goal k col) {t : State P W} (ht : Fits G goal k t)
    {f : Cell P W → Cell P W} (hf : ∀ c, (f c).state = c.state) :
    Shaped G goal k (col.alter G.algebra t f) := by
  refine ⟨Column.distinct_alter G.algebra hf h.distinct, fun c hc => ?_⟩
  rcases Column.mem_alter G.algebra h.distinct hc with ⟨hc, _⟩ | rfl
  · exact h.fits c hc
  · rw [hf, Column.cell]
    cases hfind : col.find? t with
    | none => exact ht
    | some d => exact h.fits d (Column.mem_of_find? hfind).1

end Shaped

/-- The columns before a position, each of them shaped. -/
def PastShaped (G : Grammar P W) (goal : Category) (past : List (Column P W)) : Prop :=
  ∀ k, Shaped G goal k (pastColumn past k)

/-- A shaped column may follow shaped ones. -/
theorem PastShaped.snoc {past : List (Column P W)} (h : PastShaped G goal past) {col : Column P W}
    (hcol : Shaped G goal past.length col) : PastShaped G goal (past ++ [col]) := by
  intro k
  rcases Nat.lt_trichotomy k past.length with hlt | rfl | hgt
  · rw [pastColumn_append_left hlt]
    exact h k
  · rw [pastColumn_append_self]
    exact hcol
  · rw [pastColumn_of_ge (by simpa using hgt)]
    exact .nil k

theorem PastShaped.take {past : List (Column P W)} (h : PastShaped G goal past) (n : Nat) :
    PastShaped G goal (past.take n) := by
  intro k
  by_cases hk : k < n
  · rw [pastColumn_take hk]
    exact h k
  · rw [pastColumn_of_ge (Nat.le_trans (List.length_take_le n past) (Nat.le_of_not_lt hk))]
    exact .nil k

end Parser
end StochasticGrammar
