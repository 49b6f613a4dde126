import StochasticGrammar.Proofs.Saturation
import StochasticGrammar.Proofs.Sentences

/-!
# A chart holds the items of its tokens

A state of a chart stands for a fact about derivations: the symbols before its dot derive the tokens
of its span, and the start symbol derives the tokens before it, followed by the category of its
rule. The chart holds exactly the states for which this is true.

> `Saturated.induction`: what every step keeps holds of every state of a chart.

> `Saturated.sound`, `Saturated.holds`: both directions, over left-to-right derivations.
-/

namespace StochasticGrammar.Parser

open Relation (ReflTransGen)
open Grammar (Rewrites Yields Reaches)

variable {P W : Type} [DecidableEq P] [DecidableEq W] [Probability P] {solver : Solver P}
  {G : Grammar P W} {goal : Category} {tokens : List Payload} {columns : List (Column P W)}

/-! ## Induction over a chart -/

/-- Where a state stands in the order in which the states of one column justify each other: first
the start symbol, then what was completed, by decreasing origin, and last what was predicted. -/
def rank (G : Grammar P W) (k : Nat) (s : State P W) : Nat :=
  if s.dot = 0 then (if s.rule.lhs = .start then 0 else 2 * k + 2)
  else 2 * (k - s.origin) + if isPending G k s then 0 else 1

omit [DecidableEq P] [DecidableEq W] [Probability P] in
/-- The rank of a state that has found something. -/
theorem rank_of_dot_ne (G : Grammar P W) (k : Nat) {s : State P W} (hdot : s.dot ≠ 0) :
    rank G k s = 2 * (k - s.origin) + if isPending G k s then 0 else 1 := by
  rw [rank, if_neg hdot]

omit [DecidableEq P] [DecidableEq W] [Probability P] in
/-- A state that has to be completed began at an earlier position. -/
theorem origin_lt_of_isPending {k : Nat} {s : State P W} (h : isPending G k s = true) :
    s.isComplete = true ∧ s.origin < k ∧ G.isUnit s.rule = false :=
  isPending_iff.mp h

/-- **Induction over a chart.** What holds of the seeds and is kept by prediction, scanning and
completion holds of every state. -/
theorem Saturated.induction (hG : G.Compiled solver) (h : Saturated G goal tokens columns)
    {motive : Nat → State P W → Prop}
    (seed : motive 0 (.predicted (startRule G.algebra goal) 0))
    (empty : ∀ {q}, G.isNullable goal = true → emptyStart G goal = .ok q →
      motive 0 (.predicted q.rule 0))
    (predicted : ∀ {k d z x q}, d ∈ statesAt columns k → motive k d → d.next? = some z →
      ReflTransGen G.LeftStep z x → q ∈ G.productionsOf x → motive k (.predicted q.rule k))
    (scanned : ∀ {k p token}, p ∈ statesAt columns k → motive k p → tokens[k]? = some token →
      Takes G token p → motive (k + 1) (p.advance (k + 1)))
    (completed : ∀ {k d p x}, d ∈ statesAt columns k → motive k d → isPending G k d = true →
      p ∈ statesAt columns d.origin → motive d.origin p → p.next? = some x →
      ReflTransGen G.UnitStep x d.rule.lhs → motive k (p.advance k))
    {k : Nat} {s : State P W} (hs : s ∈ statesAt columns k) : motive k s := by
  -- by position, and at one position by the rank of a state: its reasons rank lower
  induction k using Nat.strong_induction_on generalizing s with
  | _ k ihk =>
    induction hr : rank G k s using Nat.strong_induction_on generalizing s with
    | _ r ihr =>
      subst hr
      cases h.justified hs with
      | seed => exact seed
      | empty hnull hq => exact empty hnull hq
      | @predicted _ d z x q hd hkernel hz hchain hq =>
        refine predicted hd (ihr _ ?_ hd rfl) hz hchain hq
        have hrank : rank G k (.predicted q.rule k) = 2 * k + 2 :=
          (if_pos rfl).trans (if_neg (lhs_ne_start_of_used hG hq))
        rw [hrank, rank]
        by_cases hdot : d.dot = 0
        · have hlhs : d.rule.lhs = .start := by
            by_contra hne
            exact hkernel ⟨hdot, hne⟩
          rw [if_pos hdot, if_pos hlhs]
          omega
        · rw [if_neg hdot]
          split <;> omega
      | scanned hp htoken htakes =>
        exact scanned hp (ihk _ (Nat.lt_succ_self _) hp) htoken htakes
      | @completed _ d p x hd hpending hp hx hlhs hchain =>
        obtain ⟨_, hlt, _⟩ := origin_lt_of_isPending hpending
        refine completed hd (ihr _ ?_ hd rfl) hpending hp (ihk _ hlt hp) hx hchain
        have hlands := lands_of_next hG hlt (h.fits hp) (hG.mem_names_of_unitStep hlhs hchain) hx
        have hddot : d.dot ≠ 0 := Nat.ne_of_gt ((h.fits hd).dot_pos_iff.mpr hlt)
        rw [rank_of_dot_ne G k hddot, rank_of_dot_ne G k (Nat.succ_ne_zero _), hpending, if_pos rfl]
        have hle := hlands.origin_le
        split
        · next hp' =>
          have hlt' := hlands.origin_lt hp'
          omega
        · omega

/-! ## Every state is an item -/

/-- The tokens of a span. -/
def span (tokens : List Payload) (i k : Nat) : List Payload :=
  (tokens.take k).drop i

section Span

omit [DecidableEq P] [DecidableEq W] [Probability P]

/-- Spans that meet make up the span over both. -/
theorem span_append {i j k : Nat} (hij : i ≤ j) (hjk : j ≤ k) :
    span tokens i j ++ span tokens j k = span tokens i k := by
  unfold span
  rw [List.drop_take, List.drop_take, List.drop_take]
  have hsplit : tokens.drop j = (tokens.drop i).drop (j - i) := by
    rw [List.drop_drop]
    congr 1
    omega
  rw [hsplit, ← List.take_add]
  congr 1
  omega

theorem span_self (tokens : List Payload) (k : Nat) : span tokens k k = [] := by
  unfold span
  exact List.drop_eq_nil_of_le (List.length_take_le k tokens)

theorem span_zero (tokens : List Payload) (k : Nat) : span tokens 0 k = tokens.take k :=
  rfl

theorem span_succ {k : Nat} {token : Payload} (h : tokens[k]? = some token) :
    span tokens k (k + 1) = [token] := by
  unfold span
  rw [List.take_add_one, h, List.drop_append, List.length_take,
    Nat.min_eq_left (Nat.le_of_lt (List.getElem?_eq_some_iff.mp h).1), Nat.sub_self,
    List.drop_eq_nil_of_le (List.length_take_le k tokens)]
  rfl

theorem length_span {i k : Nat} (hk : k ≤ tokens.length) : (span tokens i k).length = k - i := by
  unfold span
  rw [List.length_drop, List.length_take, Nat.min_eq_left hk]

end Span

/-- A state as a fact about derivations. -/
structure IsItem (G : Grammar P W) (goal : Category) (tokens : List Payload) (k : Nat)
    (s : State P W) : Prop where
  /-- What has been found makes up the span. -/
  found : Yields G goal (s.rule.rhs.take s.dot) (span tokens s.origin k)
  /-- The start symbol calls for the category of the rule behind the tokens before. -/
  called : Reaches G goal .start (tokens.take s.origin) s.rule.lhs

omit [DecidableEq P] [DecidableEq W] in
/-- A rule of the chart rewrites what it expands. -/
theorem ChartRule.rewrites {r : Rule P W} (h : ChartRule G goal r) (hrhs : r.rhs ≠ [])
    (hlhs : ∀ {x q}, q ∈ G.productionsOf x → q.rule.lhs = x) : Rewrites G goal r.lhs r.rhs := by
  cases h with
  | start => exact .start
  | empty hnull hq =>
    rw [emptyStart_eq_ok hq] at hrhs
    exact absurd rfl hrhs
  | used hq =>
    rw [hlhs hq]
    exact .rule hq

omit [DecidableEq P] [DecidableEq W] [Probability P] in
theorem take_succ_of_next {s : State P W} {c : Category} (h : s.next? = some c) :
    s.rule.rhs.take (s.dot + 1) = s.rule.rhs.take s.dot ++ [c] := by
  rw [List.take_add_one]
  exact congrArg (s.rule.rhs.take s.dot ++ Option.toList ·) h

/-- What a state waits for is called for at its position. -/
theorem IsItem.reaches_next (hG : G.Compiled solver) {k : Nat} {s : State P W}
    (hfits : Fits G goal k s) (h : IsItem G goal tokens k s) {z : Category}
    (hz : s.next? = some z) :
    Reaches G goal .start (tokens.take k) z := by
  obtain ⟨_, hrhs⟩ := State.next?_eq_some hz
  have hrw : Rewrites G goal s.rule.lhs s.rule.rhs := by
    refine hfits.rule.rewrites ?_ fun hq => (hG.isSound hq).lhs
    rw [hrhs]
    simp
  rw [hrhs] at hrw
  have hdown := h.called.down hrw h.found
  rwa [← span_zero, span_append (Nat.zero_le _) hfits.origin_le, span_zero] at hdown

omit [DecidableEq P] [DecidableEq W] [Probability P] in
/-- Left corners are called for where the category is. -/
theorem reaches_of_leftStep {ts : List Payload} {y z x : Category}
    (h : Reaches G goal y ts z) (hchain : ReflTransGen G.LeftStep z x) : Reaches G goal y ts x := by
  induction hchain with
  | refl => exact h
  | tail _ hstep ih =>
    obtain ⟨q, hq, rest, hrhs, _⟩ := hstep
    have hrw : Rewrites G goal _ ([] ++ _ :: rest) := hrhs ▸ Rewrites.rule hq
    have hdown := ih.down hrw .nil
    rwa [List.append_nil] at hdown

omit [DecidableEq P] [DecidableEq W] [Probability P] in
/-- A chain of unit rules yields what its end yields. -/
theorem yields_of_unitStep {ts : List Payload} {x y : Category}
    (hchain : ReflTransGen G.UnitStep x y) (h : Yields G goal [y] ts) : Yields G goal [x] ts := by
  induction hchain using ReflTransGen.head_induction_on with
  | refl => exact h
  | head hstep _ ih =>
    obtain ⟨q, hq, hrhs, _⟩ := hstep
    exact .single (hrhs ▸ Rewrites.rule hq) ih

/-- **Every state of a chart is an item.** -/
theorem Saturated.sound (hG : G.Compiled solver) (h : Saturated G goal tokens columns) {k : Nat}
    {s : State P W} (hs : s ∈ statesAt columns k) : IsItem G goal tokens k s := by
  refine h.induction (motive := IsItem G goal tokens) hG ⟨.nil, .refl _⟩ ?_ ?_ ?_ ?_ hs
  · intro q hnull hq
    rw [emptyStart_eq_ok hq]
    exact ⟨.nil, .refl _⟩
  · intro k d z x q hd hitem hz hchain hq
    refine ⟨?_, ?_⟩
    · show Yields G goal [] (span tokens k k)
      rw [span_self]
      exact .nil
    · show Reaches G goal .start (tokens.take k) q.rule.lhs
      rw [(hG.isSound hq).lhs]
      exact reaches_of_leftStep (hitem.reaches_next hG (h.fits hd) hz) hchain
  · intro k p token hp hitem htoken htakes
    obtain ⟨c, hc, hterm, haccepts⟩ := htakes
    refine ⟨?_, hitem.called⟩
    show Yields G goal (p.rule.rhs.take (p.dot + 1)) (span tokens p.origin (k + 1))
    rw [take_succ_of_next hc, ← span_append (h.fits hp).origin_le (Nat.le_succ k), span_succ htoken]
    exact hitem.found.append (.terminal hterm haccepts .nil)
  · intro k d p x hd hitem hpending hp hitem' hx hchain
    obtain ⟨hcomplete, hlt, _⟩ := origin_lt_of_isPending hpending
    have hfits := h.fits hd
    have hdot := hfits.dot_eq_of_isComplete hcomplete
    refine ⟨?_, hitem'.called⟩
    show Yields G goal (p.rule.rhs.take (p.dot + 1)) (span tokens p.origin k)
    rw [take_succ_of_next hx, ← span_append (h.fits hp).origin_le (Nat.le_of_lt hlt)]
    have hrw : Rewrites G goal d.rule.lhs d.rule.rhs := by
      refine hfits.rule.rewrites (fun hnil => ?_) fun hq => (hG.isSound hq).lhs
      have hpos := hfits.dot_pos_iff.mpr hlt
      rw [hdot, hnil] at hpos
      exact absurd hpos (Nat.lt_irrefl 0)
    have hfound := hitem.found
    rw [hdot, List.take_length] at hfound
    exact hitem'.found.append (yields_of_unitStep hchain (.single hrw hfound))

/-! ## Every item is a state -/

theorem of_drop_eq_cons {α : Type} {l xs : List α} {n : Nat} {x : α} (h : l.drop n = x :: xs) :
    l[n]? = some x ∧ l.drop (n + 1) = xs := by
  rw [← List.head?_drop, ← List.drop_drop, h]
  exact ⟨rfl, rfl⟩

theorem drop_of_drop_eq_append {α : Type} {l xs ys : List α} {n : Nat} (h : l.drop n = xs ++ ys) :
    l.drop (n + xs.length) = ys := by
  rw [← List.drop_drop, h, List.drop_left]

/-- The state after some more symbols, found up to a position. -/
def State.found (s : State P W) (n k : Nat) : State P W :=
  ⟨s.origin, s.dot + n, k, s.rule⟩

omit [DecidableEq P] [DecidableEq W] [Probability P] in
theorem State.found_advance (s : State P W) (l n k : Nat) :
    State.found (s.advance l) n k = State.found s (n + 1) k := by
  rw [State.found, State.found, State.advance]
  dsimp only
  congr 1
  omega

omit [DecidableEq P] [DecidableEq W] [Probability P] in
/-- Every rule yields something, so a string is no longer than what it yields. -/
theorem length_le_of_yields (hne : ∀ {x q}, q ∈ G.productionsOf x → q.rule.rhs ≠ [])
    {symbols : List Category} {ts : List Payload} (h : Yields G goal symbols ts) :
    symbols.length ≤ ts.length := by
  induction h with
  | nil => exact Nat.le_refl _
  | terminal _ _ _ ih => exact Nat.succ_le_succ ih
  | @expand x rhs rest found ts h _ _ ih₁ ih₂ =>
    have hpos : 0 < rhs.length := by
      cases h with
      | start => exact Nat.one_pos
      | rule hq => exact List.length_pos_iff.mpr (hne hq)
    rw [List.length_cons, List.length_append]
    omega

/-- A state moves over whatever its next symbols yield. -/
theorem Saturated.found_of_yields (hG : G.Compiled solver) (h : Saturated G goal tokens columns)
    {symbols : List Category} {ts : List Payload} (hy : Yields G goal symbols ts) {i : Nat}
    {s : State P W} (hs : s ∈ statesAt columns i) {rest : List Category}
    (hrest : s.rule.rhs.drop s.dot = symbols ++ rest) {more : List Payload}
    (hmore : tokens.drop i = ts ++ more) :
    State.found s symbols.length (i + ts.length) ∈ statesAt columns (i + ts.length) := by
  induction hy generalizing i s rest more with
  | nil =>
    obtain rfl : s.position = i := (h.fits hs).position
    exact hs
  | @terminal c token symbols ts hterm haccepts _ ih =>
    obtain ⟨hnext, hrest'⟩ := of_drop_eq_cons hrest
    obtain ⟨htoken, hmore'⟩ := of_drop_eq_cons hmore
    have hmoved := ih (h.scan hs htoken ⟨c, hnext, hterm, haccepts⟩) hrest' hmore'
    have hend : i + 1 + ts.length = i + (token :: ts).length := by
      rw [List.length_cons]
      omega
    rwa [State.found_advance, hend] at hmoved
  | @expand x rhs symbols found ts hrw hrhs _ ih₁ ih₂ =>
    obtain ⟨hnext, hrest'⟩ := of_drop_eq_cons hrest
    have hnext : s.next? = some x := hnext
    rw [List.append_assoc] at hmore
    cases hrw with
    | start => exact absurd rfl ((h.fits hs).next_ne_start hG h.goal_ne hnext)
    | @rule _ q hq =>
      have hlen := length_le_of_yields (fun hq => (hG.isSound hq).rhs_ne) hrhs
      have hpos : 0 < q.rule.rhs.length := List.length_pos_iff.mpr (hG.isSound hq).rhs_ne
      -- the production is predicted, moves over its right side, and is complete
      have hdone := ih₁ (h.predict hs hnext hq) (List.append_nil _).symm hmore
      have hstep := h.complete hdone (by simp [State.isComplete, State.found, State.predicted])
        (show i < i + found.length by omega) hs (by rw [hnext, ← (hG.isSound hq).lhs]; rfl)
      have hmoved := ih₂ hstep hrest' (drop_of_drop_eq_append hmore)
      have hend : i + found.length + ts.length = i + (found ++ ts).length := by
        rw [List.length_append]
        omega
      rwa [State.found_advance, hend] at hmoved

/-- A category is called for at a position: all its productions stand there, or it is the start
symbol and stands at the beginning. -/
def IsCalled (G : Grammar P W) (columns : List (Column P W)) (i : Nat) (x : Category) : Prop :=
  (x = .start ∧ i = 0) ∨
    (x ≠ .start ∧ ∀ q ∈ G.productionsOf x, .predicted q.rule i ∈ statesAt columns i)

/-- What is called for has been predicted. -/
theorem Saturated.exists_of_isCalled (hG : G.Compiled solver) (h : Saturated G goal tokens columns)
    {i : Nat} {x : Category} (hx : IsCalled G columns i x) {rhs : List Category}
    (hrw : Rewrites G goal x rhs) : ∃ s ∈ statesAt columns i, s.dot = 0 ∧ s.rule.rhs = rhs := by
  cases hrw with
  | start =>
    rcases hx with ⟨_, rfl⟩ | ⟨hne, _⟩
    · exact ⟨_, h.seed, rfl, rfl⟩
    · exact absurd rfl hne
  | @rule _ q hq =>
    rcases hx with ⟨rfl, _⟩ | ⟨_, hx⟩
    · exact absurd rfl (hG.isSound hq).lhs_ne_start
    · exact ⟨_, hx q hq, rfl, rfl⟩

/-- What is called for leads down to what is called for. -/
theorem Saturated.isCalled_of_reaches (hG : G.Compiled solver)
    (h : Saturated G goal tokens columns) {x z : Category} {ts : List Payload}
    (hr : Reaches G goal x ts z) {i : Nat} {more : List Payload}
    (hmore : tokens.drop i = ts ++ more) (hx : IsCalled G columns i x) :
    IsCalled G columns (i + ts.length) z := by
  induction hr generalizing i with
  | refl x => exact hx
  | @step x y z left right found ts hrw hleft _ ih =>
    obtain ⟨s, hs, hdot, hrhs⟩ := h.exists_of_isCalled hG hx hrw
    rw [List.append_assoc] at hmore
    have hfound := h.found_of_yields hG hleft hs (by rw [hdot, List.drop_zero, hrhs]) hmore
    have hnext : (State.found s left.length (i + found.length)).next? = some y := by
      rw [State.next?, State.found, hdot, Nat.zero_add]
      dsimp only
      rw [hrhs, List.getElem?_append_right (Nat.le_refl _), Nat.sub_self]
      rfl
    have hy : IsCalled G columns (i + found.length) y :=
      Or.inr ⟨(h.fits hfound).next_ne_start hG h.goal_ne hnext,
        fun q hq => h.predict hfound hnext hq⟩
    rw [List.length_append, ← Nat.add_assoc]
    exact ih (drop_of_drop_eq_append hmore) hy

/-- **Every item is a state of the chart.** -/
theorem Saturated.holds (hG : G.Compiled solver) (h : Saturated G goal tokens columns) {k : Nat}
    (hk : k ≤ tokens.length) {s : State P W}
    (hrule : s.rule = startRule G.algebra goal ∨ s.rule ∈ G.compiledRules)
    (hpos : s.position = k) (horigin : s.origin ≤ k) (hdot : s.dot ≤ s.rule.rhs.length)
    (hitem : IsItem G goal tokens k s) : s ∈ statesAt columns k := by
  have hlen : (tokens.take s.origin).length = s.origin := by
    rw [List.length_take]
    omega
  have hcalled := h.isCalled_of_reaches hG hitem.called (List.take_append_drop _ _).symm
    (Or.inl ⟨rfl, rfl⟩)
  rw [hlen, Nat.zero_add] at hcalled
  have hpredicted : .predicted s.rule s.origin ∈ statesAt columns s.origin := by
    rcases hrule with hstart | hused
    · rcases hcalled with ⟨_, hzero⟩ | ⟨hne, _⟩
      · rw [hstart, hzero]
        exact h.seed
      · rw [hstart] at hne
        exact absurd rfl hne
    · obtain ⟨q, hq, hqr⟩ := hG.mem_compiledRules.mp hused
      rcases hcalled with ⟨hlhs, _⟩ | ⟨_, hall⟩
      · rw [← hqr] at hlhs
        exact absurd hlhs (lhs_ne_start_of_used hG hq)
      · rw [← hqr]
        exact hall q hq
  have hmore : tokens.drop s.origin = span tokens s.origin k ++ tokens.drop k := by
    unfold span
    rw [List.drop_take]
    have hsplit : tokens.drop k = (tokens.drop s.origin).drop (k - s.origin) := by
      rw [List.drop_drop]
      congr 1
      omega
    rw [hsplit, List.take_append_drop]
  have hfound := h.found_of_yields hG hitem.found hpredicted
    (List.take_append_drop s.dot s.rule.rhs).symm hmore
  rw [length_span hk, List.length_take, Nat.min_eq_left hdot, Nat.add_sub_cancel' horigin,
    State.found, State.predicted, Nat.zero_add, ← hpos] at hfound
  rw [← hpos]
  exact hfound

end StochasticGrammar.Parser
