import StochasticGrammar.Proofs.ExactSolver
import StochasticGrammar.Proofs.Flow
import StochasticGrammar.Proofs.Recognition
import StochasticGrammar.Proofs.UnitSums

/-!
# Inner scores are masses

With exact arithmetic the inner score of a state is the weight of its rule times the mass of all
derivations of its span from the symbols before its dot. The proof follows the order in which the
parser completes a column: a phrase is complete before anything moves over it, since it starts later
or, where it starts at the same place, since what moves over it only completes a unit rule.

> `Run.inner_eq_mass`: the inner score of every state of a chart, present or not.
-/

namespace StochasticGrammar

open scoped ENNReal Classical
open Relation (ReflTransGen)
open Grammar

variable {W : Type} [DecidableEq W] {solver : Solver ℝ} {G : Grammar ℝ W} {goal : Category}
  {value : W → ℝ}

/-! ## Scores and masses -/

/-- A score that is not negative, as a mass. -/
def Measures (a : ℝ) (m : ℝ≥0∞) : Prop :=
  0 ≤ a ∧ ENNReal.ofReal a = m

namespace Measures

variable {a b : ℝ} {m n : ℝ≥0∞}

theorem zero : Measures 0 0 :=
  ⟨le_refl 0, ENNReal.ofReal_zero⟩

theorem ofReal (h : 0 ≤ a) : Measures a (ENNReal.ofReal a) :=
  ⟨h, rfl⟩

theorem mul (ha : Measures a m) (hb : Measures b n) : Measures (a * b) (m * n) :=
  ⟨mul_nonneg ha.1 hb.1, by rw [ENNReal.ofReal_mul ha.1, ha.2, hb.2]⟩

theorem sum {ι : Type} {s : Finset ι} {f : ι → ℝ} {g : ι → ℝ≥0∞}
    (h : ∀ i ∈ s, Measures (f i) (g i)) : Measures (∑ i ∈ s, f i) (∑ i ∈ s, g i) := by
  refine ⟨Finset.sum_nonneg fun i hi => (h i hi).1, ?_⟩
  rw [ENNReal.ofReal_sum_of_nonneg fun i hi => (h i hi).1]
  exact Finset.sum_congr rfl fun i hi => (h i hi).2

theorem eq (ha : Measures a m) (hb : Measures b m) : a = b :=
  (ENNReal.ofReal_eq_ofReal_iff ha.1 hb.1).mp (ha.2.trans hb.2.symm)

end Measures

namespace Grammar

/-- The mass of the unit chains between two names is the score that the grammar has for them. -/
theorem measures_unitScore (hG : G.Compiled solver) (hsolver : solver.IsExact)
    (hvalue : G.algebra.IsAdditive value) {x y : Category} (hx : x ∈ G.names) (hy : y ∈ G.names) :
    Measures (value (G.unitScore x y)) (G.chainMass value x y) := by
  obtain ⟨present, chain, htable⟩ := exists_isUnitTable hG hsolver
  obtain ⟨i, rfl⟩ := exists_name hx
  obtain ⟨j, rfl⟩ := exists_name hy
  have hscore : value (G.unitScore G.names[i] G.names[j]) = chain i j := by
    rw [hG.unitScore_rows htable.table]
    split
    · rename_i hpresent
      exact hvalue.ofProbability (htable.positive i j hpresent)
    · rename_i habsent
      rw [hvalue.zero, htable.absent i j habsent]
  have hnonneg : 0 ≤ chain i j := by
    by_cases hpresent : present.entry i j = true
    · exact (htable.positive i j hpresent).le
    · exact (htable.absent i j hpresent).ge
  rw [hscore]
  exact ⟨hnonneg, (chainMass_eq hG hvalue.toIsExact htable i j).symm⟩

/-- The mass of a name, over the rules that are no unit rules. -/
theorem massOf_eq_sum (hG : G.Compiled solver) (hsolver : solver.IsExact)
    (hvalue : G.algebra.IsAdditive value) {x : Category} (hx : x ∈ G.names)
    (tokens : List Payload) :
    G.massOf x tokens = ∑ r ∈ G.plainRules, G.chainMass value x r.lhs
      * (ENNReal.ofReal r.probability * G.massAll r.rhs tokens) := by
  rw [massOf_eq_chains hG hsolver hvalue.toIsExact (hG.isNonterminal_iff.mpr hx),
    tsum_eq_sum (s := G.plainRules)]
  · exact Finset.sum_congr rfl fun r hr => if_pos ((Parser.mem_plainRules hG).mp hr)
  · intro r hr
    exact if_neg fun h => hr ((Parser.mem_plainRules hG).mpr h)

/-- The mass of a string over a span, by the position where its last symbol begins. -/
theorem massAll_concat_span (hG : G.Compiled solver) (symbols : List Category) (x : Category)
    {tokens : List Payload} {i k : Nat} (hi : i ≤ k) (hk : k ≤ tokens.length) :
    G.massAll (symbols ++ [x]) (Parser.span tokens i k)
      = ∑ l ∈ Finset.Ico i k, G.massAll symbols (Parser.span tokens i l)
          * G.massOf x (Parser.span tokens l k) := by
  have hsplit : ∀ j ≤ k - i, (Parser.span tokens i k).take j = Parser.span tokens i (i + j) ∧
      (Parser.span tokens i k).drop j = Parser.span tokens (i + j) k := by
    intro j hj
    unfold Parser.span
    constructor
    · rw [List.take_drop, List.take_take, Nat.min_eq_left (by omega)]
    · rw [List.drop_drop]
  rw [massAll_concat, Parser.length_span hk, Finset.sum_range_succ, Finset.sum_Ico_eq_sum_range]
  -- the last symbol does not derive nothing
  have hlast : (Parser.span tokens i k).drop (k - i) = [] := by
    rw [(hsplit (k - i) (Nat.le_refl _)).2, Nat.add_sub_cancel' hi, Parser.span_self]
  rw [hlast, massOf_nil hG, mul_zero, add_zero]
  refine Finset.sum_congr rfl fun j hj => ?_
  have hlt := Finset.mem_range.mp hj
  rw [(hsplit j (by omega)).1, (hsplit j (by omega)).2]

end Grammar

namespace Parser

/-- The rules that the parser uses are weighted by their probabilities. -/
theorem value_weight_of_uses (hG : G.Compiled solver) (hvalue : G.algebra.IsAdditive value)
    {r : Rule ℝ W} (hr : G.Uses r) : value r.weight = r.probability := by
  obtain ⟨x, q, hq, rfl⟩ := hr
  rw [(hG.isSound hq).weight, hvalue.ofProbability (hG.isSound hq).proper.2.1]

/-- The weight of every rule but the one for the empty sentence is positive. -/
theorem value_weight_pos (hG : G.Compiled solver) (hvalue : G.algebra.IsAdditive value)
    {r : Rule ℝ W} (hr : r = startRule G.algebra goal ∨ G.Uses r) : 0 < value r.weight := by
  rcases hr with rfl | huses
  · show 0 < value G.algebra.one
    rw [hvalue.one]
    exact zero_lt_one
  · rw [value_weight_of_uses hG hvalue huses]
    exact hG.probability_pos_of_uses huses

/-- Beside a state stand the productions of everything at the left corner of what it waits for. -/
theorem Saturated.predicted_of_leftStep {tokens : List Payload} {columns : List (Column ℝ W)}
    (h : Saturated G goal tokens columns) {k : Nat} {z x : Category}
    (hchain : ReflTransGen G.LeftStep z x) {q : Production ℝ W} (hq : q ∈ G.productionsOf x)
    {s : State ℝ W} (hs : s ∈ statesAt columns k) (hz : s.next? = some z) :
    .predicted q.rule k ∈ statesAt columns k := by
  induction hchain using ReflTransGen.head_induction_on generalizing s with
  | refl => exact h.predict hs hz hq
  | head hstep _ ih =>
    obtain ⟨p, hp, rest, hrhs, _⟩ := hstep
    refine ih (h.predict hs hz hp) ?_
    simp [State.next?, State.predicted, hrhs]

/-- A state stands in a chart only where its rule was predicted. -/
theorem Saturated.predicted_mem {tokens : List Payload} {columns : List (Column ℝ W)}
    (hG : G.Compiled solver) (h : Saturated G goal tokens columns) {k : Nat} {s : State ℝ W}
    (hs : s ∈ statesAt columns k) : .predicted s.rule s.origin ∈ statesAt columns s.origin := by
  refine h.induction (motive := fun _ s => .predicted s.rule s.origin ∈ statesAt columns s.origin)
    hG h.seed ?_ ?_ (fun _ hp _ _ => hp) (fun _ _ _ _ hp _ _ => hp) hs
  · intro q hnull hq
    obtain ⟨q', hq', hmem⟩ := h.empty hnull
    rw [hq] at hq'
    cases hq'
    exact hmem
  · intro k d z x q hd _ hz hchain hq
    exact h.predicted_of_leftStep hchain hq hd hz

section Run

variable {tokens : List Payload} {columns : List (Column ℝ W)}

/-- The inner score of a state, present or not, is a mass. -/
def IsMass (G : Grammar ℝ W) (value : W → ℝ) (tokens : List Payload) (columns : List (Column ℝ W))
    (k : Nat) (s : State ℝ W) : Prop :=
  Measures (amount G.algebra value Cell.inner (pastColumn columns k) s)
    (ENNReal.ofReal (value s.rule.weight)
      * G.massAll (s.rule.rhs.take s.dot) (span tokens s.origin k))

/-- A state that has found nothing. -/
theorem Run.isMass_of_dot_eq (hG : G.Compiled solver) (hvalue : G.algebra.IsAdditive value)
    (h : Run G goal tokens columns) {i k : Nat} (hik : i ≤ k) (hk : k ≤ tokens.length)
    {r : Rule ℝ W} (hr : ChartRule G goal r) (hmem : .predicted r i ∈ statesAt columns i)
    (hweight : 0 ≤ value r.weight) : IsMass G value tokens columns k ⟨i, 0, k, r⟩ := by
  unfold IsMass
  rw [List.take_zero, massAll_nil]
  rcases Nat.eq_or_lt_of_le hik with rfl | hlt
  · have hinner : amount G.algebra value Cell.inner (pastColumn columns i) ⟨i, 0, i, r⟩
        = value r.weight := h.inner_predicted hG hvalue hmem
    rw [hinner, span_self, if_pos rfl, mul_one]
    exact .ofReal hweight
  · have hno : ¬ Fits G goal k (⟨i, 0, k, r⟩ : State ℝ W) := fun hfits =>
      absurd (hfits.origin_eq rfl) (Nat.ne_of_lt hlt)
    have hspan : span tokens i k ≠ [] := by
      intro hnil
      have hlen : (span tokens i k).length = k - i := length_span hk
      rw [hnil, List.length_nil] at hlen
      omega
    rw [h.amount_of_not_fits hG hvalue (isScore_inner _) hr hno, if_neg hspan, mul_zero]
    exact .zero

omit [DecidableEq W] in
theorem take_succ_of_getElem? {r : Rule ℝ W} {n : Nat} {x : Category} (hx : r.rhs[n]? = some x) :
    r.rhs.take (n + 1) = r.rhs.take n ++ [x] := by
  rw [List.take_add_one, hx]
  rfl

/-- A state that moves over a token. -/
theorem Run.isMass_token (hG : G.Compiled solver) (hvalue : G.algebra.IsAdditive value)
    (h : Run G goal tokens columns) {i n k : Nat} {token : Payload} (hk : tokens[k]? = some token)
    (hik : i ≤ k) {r : Rule ℝ W} (hr : ChartRule G goal r) {x : Category}
    (hx : r.rhs[n]? = some x) (hterm : G.isTerminal x = true)
    (hprev : IsMass G value tokens columns k ⟨i, n, k, r⟩) :
    IsMass G value tokens columns (k + 1) ⟨i, n + 1, k + 1, r⟩ := by
  have hlt : k < tokens.length := (List.getElem?_eq_some_iff.mp hk).1
  have hflow : amount G.algebra value Cell.inner (pastColumn columns (k + 1)) ⟨i, n + 1, k + 1, r⟩
      = if x.accepts token = .ok true then
          amount G.algebra value Cell.inner (pastColumn columns k) ⟨i, n, k, r⟩ else 0 :=
    h.amount_token hG hvalue (isScore_inner _) hk hr hx hterm
  -- the last symbol derives one token
  have hmass : G.massAll (r.rhs.take (n + 1)) (span tokens i (k + 1))
      = if x.accepts token = .ok true then G.massAll (r.rhs.take n) (span tokens i k) else 0 := by
    rw [take_succ_of_getElem? hx, massAll_concat_span hG _ x (by omega) hlt,
      Finset.sum_eq_single k]
    · rw [massOf_terminal hG hterm, span_succ hk]
      by_cases haccepts : x.accepts token = .ok true
      · rw [if_pos ⟨token, rfl, haccepts⟩, if_pos haccepts, mul_one]
      · rw [if_neg, if_neg haccepts, mul_zero]
        rintro ⟨t, ht, haccepts'⟩
        cases ht
        exact haccepts haccepts'
    · intro l hl hne
      rw [massOf_terminal hG hterm, if_neg, mul_zero]
      rintro ⟨t, ht, _⟩
      have hlen : (span tokens l (k + 1)).length = k + 1 - l := length_span hlt
      rw [ht, List.length_singleton] at hlen
      have hlk := Finset.mem_Ico.mp hl
      omega
    · intro hno
      exact absurd (Finset.mem_Ico.mpr ⟨hik, Nat.lt_succ_self k⟩) hno
  unfold IsMass at hprev ⊢
  rw [hflow, hmass]
  split
  · exact hprev
  · rw [mul_zero]
    exact .zero

/-- What the complete phrases of a name over a span amount to: by the rules at the ends of its unit
chains. -/
noncomputable def phraseScore (G : Grammar ℝ W) (value : W → ℝ) (columns : List (Column ℝ W))
    (x : Category) (l k : Nat) : ℝ :=
  ∑ r ∈ G.plainRules, value (G.unitScore x r.lhs)
    * amount G.algebra value Cell.inner (pastColumn columns k) (done k r l)

/-- The phrases of a name have its mass, if the rules that its unit chains lead to have theirs. -/
theorem measures_phraseScore (hG : G.Compiled solver) (hsolver : solver.IsExact)
    (hvalue : G.algebra.IsAdditive value) {x : Category} (hx : x ∈ G.names) {l k : Nat}
    (hdone : ∀ r ∈ G.plainRules, ReflTransGen G.UnitStep x r.lhs →
      IsMass G value tokens columns k (done k r l)) :
    Measures (phraseScore G value columns x l k) (G.massOf x (span tokens l k)) := by
  rw [massOf_eq_sum hG hsolver hvalue hx]
  refine .sum fun r hr => ?_
  obtain ⟨huses, _⟩ := (mem_plainRules hG).mp hr
  have hchain := measures_unitScore hG hsolver hvalue hx (hG.mem_names_of_uses huses)
  by_cases hne : G.chainMass value x r.lhs = 0
  · -- no chain leads there, so that the phrase need not have its mass
    obtain ⟨hnonneg, hzero⟩ := hchain
    rw [hne] at hzero ⊢
    rw [le_antisymm (ENNReal.ofReal_eq_zero.mp hzero) hnonneg, zero_mul, zero_mul]
    exact .zero
  · have hmass := hdone r hr (unitStep_of_chainMass_ne hG hne).2
    unfold IsMass at hmass
    simp only [done, List.take_length, value_weight_of_uses hG hvalue huses] at hmass
    exact hchain.mul hmass

/-- What has moved over phrases into a state, by where the last of them begins. -/
theorem Run.inner_succ (hG : G.Compiled solver) (hvalue : G.algebra.IsAdditive value)
    (h : Run G goal tokens columns) {i n k : Nat} {token : Payload} (hk : tokens[k]? = some token)
    {r : Rule ℝ W} (hr : ChartRule G goal r) {x : Category} (hx : r.rhs[n]? = some x)
    (hname : x ∈ G.names) :
    amount G.algebra value Cell.inner (pastColumn columns (k + 1)) ⟨i, n + 1, k + 1, r⟩
      = ∑ l ∈ Finset.Ico i (k + 1),
        amount G.algebra value Cell.inner (pastColumn columns l) ⟨i, n, l, r⟩
          * phraseScore G value columns x l (k + 1) := by
  have hnot : ¬ (G.isTerminal x = true ∧ x.accepts token = .ok true) := by
    rintro ⟨hterm, _⟩
    exact hG.not_isTerminal_of_mem hname hterm
  rw [h.amount_succ hG hvalue (isScore_inner _) hk hr hx, if_neg hnot, zero_add]
  refine (Finset.sum_subset (fun l hl => ?_) fun l hl hout => ?_).symm
  · exact Finset.mem_range.mpr (Finset.mem_Ico.mp hl).2
  · -- before its origin the state is not there
    have hlt : l < i := by
      by_contra hge
      exact hout (Finset.mem_Ico.mpr ⟨by omega, Finset.mem_range.mp hl⟩)
    rw [h.amount_of_not_fits hG hvalue (isScore_inner _) (s := ⟨i, n, l, r⟩) hr, zero_mul]
    intro hfits
    have hle : i ≤ l := hfits.origin_le
    omega

/-- A state that moves over phrases. -/
theorem Run.isMass_phrase (hG : G.Compiled solver) (hsolver : solver.IsExact)
    (hvalue : G.algebra.IsAdditive value) (h : Run G goal tokens columns) {i n k : Nat}
    {token : Payload} (hk : tokens[k]? = some token) (hik : i ≤ k) {r : Rule ℝ W}
    (hr : ChartRule G goal r) {x : Category} (hx : r.rhs[n]? = some x) (hname : x ∈ G.names)
    (hprev : ∀ l, i ≤ l → l ≤ k → IsMass G value tokens columns l ⟨i, n, l, r⟩)
    (hdone : ∀ l r', (⟨i, n, l, r⟩ : State ℝ W) ∈ statesAt columns l → l ≤ k →
      r' ∈ G.plainRules → ReflTransGen G.UnitStep x r'.lhs →
      IsMass G value tokens columns (k + 1) (done (k + 1) r' l)) :
    IsMass G value tokens columns (k + 1) ⟨i, n + 1, k + 1, r⟩ := by
  have hlt : k < tokens.length := (List.getElem?_eq_some_iff.mp hk).1
  unfold IsMass
  rw [h.inner_succ hG hvalue hk hr hx hname,
    show (⟨i, n + 1, k + 1, r⟩ : State ℝ W).rule.rhs.take (n + 1) = r.rhs.take n ++ [x] from
      take_succ_of_getElem? hx, massAll_concat_span hG _ x (Nat.le_succ_of_le hik) hlt,
    Finset.mul_sum]
  -- both sides are sums over the place where the last phrase begins
  refine .sum fun l hl => ?_
  obtain ⟨hil, hlk⟩ := Finset.mem_Ico.mp hl
  have hbefore := hprev l hil (by omega)
  unfold IsMass at hbefore
  rw [← mul_assoc]
  by_cases hmem : (⟨i, n, l, r⟩ : State ℝ W) ∈ statesAt columns l
  · exact hbefore.mul (measures_phraseScore hG hsolver hvalue hname
      fun r' hr' hchain => hdone l r' hmem (by omega) hr' hchain)
  · -- a state that does not wait there moves over nothing
    have hzero : amount G.algebra value Cell.inner (pastColumn columns l) ⟨i, n, l, r⟩ = 0 :=
      amount_of_not_mem hG hvalue (isScore_inner _) (h.pastShaped hG l) (s := ⟨i, n, l, r⟩) hr hmem
    obtain ⟨_, hmass⟩ := hbefore
    rw [hzero, ENNReal.ofReal_zero] at hmass
    rw [hzero, ← hmass, zero_mul, zero_mul]
    exact .zero

/-- A phrase is ranked before what moves over it. -/
theorem rank_done_lt (hG : G.Compiled solver) {i n l k : Nat} {r r' : Rule ℝ W}
    (hfits : Fits G goal l ⟨i, n, l, r⟩) (hlk : l < k) {x : Category} (hname : x ∈ G.names)
    (hx : r.rhs[n]? = some x) (hr' : r' ∈ G.plainRules) :
    rank G k (done k r' l) < rank G k ⟨i, n + 1, k, r⟩ := by
  obtain ⟨⟨y, q, hq, rfl⟩, hunit⟩ := (mem_plainRules hG).mp hr'
  have hlands : Lands G goal k l ⟨i, n + 1, k, r⟩ :=
    lands_of_next hG hlk (s := ⟨i, n, l, r⟩) hfits hname hx
  have hdot : (done k q.rule l).dot ≠ 0 := fun hdot =>
    (hG.isSound hq).rhs_ne (List.length_eq_zero_iff.mp hdot)
  have hpending : isPending G k (done k q.rule l) = true := by
    simp [isPending, done, State.isComplete, hlk, hunit]
  have hle : i ≤ l := hlands.origin_le
  rw [rank_of_dot_ne G k hdot, rank_of_dot_ne G k (s := ⟨i, n + 1, k, r⟩) (Nat.succ_ne_zero n),
    if_pos hpending]
  show 2 * (k - l) + 0 < 2 * (k - i) + _
  split
  · rename_i h
    have hlt : i < l := hlands.origin_lt h
    omega
  · omega

/-- **Inner scores are masses.** -/
theorem Run.inner_eq_mass (hG : G.Compiled solver) (hsolver : solver.IsExact)
    (hvalue : G.algebra.IsAdditive value) (h : Run G goal tokens columns) {k : Nat}
    (hk : k ≤ tokens.length) {i n : Nat} (hik : i ≤ k) {r : Rule ℝ W} (hn : n ≤ r.rhs.length)
    (hr : r = startRule G.algebra goal ∨ G.Uses r)
    (hmem : .predicted r i ∈ statesAt columns i) :
    IsMass G value tokens columns k ⟨i, n, k, r⟩ := by
  have hsat := h.saturated hG
  have hchart : ∀ {r : Rule ℝ W}, r = startRule G.algebra goal ∨ G.Uses r → ChartRule G goal r := by
    rintro r (rfl | ⟨x, q, hq, rfl⟩)
    · exact .start
    · exact .used hq
  -- by position, and at one position by the order in which states are completed
  induction k using Nat.strong_induction_on generalizing i n r with
  | _ k earlier =>
    induction hm : rank G k (⟨i, n, k, r⟩ : State ℝ W) using Nat.strong_induction_on
      generalizing i n r with
    | _ m before =>
      cases n with
      | zero =>
        exact h.isMass_of_dot_eq hG hvalue hik hk (hchart hr) hmem
          (value_weight_pos hG hvalue hr).le
      | succ n =>
        have hget : r.rhs[n]? = some (r.rhs.get ⟨n, hn⟩) := List.getElem?_eq_getElem hn
        rcases Nat.eq_or_lt_of_le hik with rfl | hlt
        · -- nothing is found where the state starts
          have hno : ¬ Fits G goal i (⟨i, n + 1, i, r⟩ : State ℝ W) := fun hfits =>
            Nat.lt_irrefl i (hfits.origin_lt (Nat.succ_pos n))
          have hne : r.rhs.take (n + 1) ≠ [] := by
            rw [take_succ_of_getElem? hget]
            exact List.append_ne_nil_of_right_ne_nil _ (List.cons_ne_nil _ _)
          unfold IsMass
          rw [h.amount_of_not_fits hG hvalue (isScore_inner _) (s := ⟨i, n + 1, i, r⟩) (hchart hr)
            hno, span_self, massAll_nil_tokens hG hne, mul_zero]
          exact .zero
        · obtain ⟨k, rfl⟩ : ∃ k', k = k' + 1 := ⟨k - 1, by omega⟩
          have htoken : tokens[k]? = some (tokens.get ⟨k, hk⟩) := List.getElem?_eq_getElem hk
          by_cases hname : r.rhs.get ⟨n, hn⟩ ∈ G.names
          · refine h.isMass_phrase hG hsolver hvalue htoken (by omega) (hchart hr) hget hname
              (fun l hil hlk => ?_) fun l r' hwait hlk hr' hchain => ?_
            · exact earlier l (by omega) (by omega) hil (by omega) hr hmem
            · obtain ⟨⟨y, q, hq, hrule⟩, _⟩ := (mem_plainRules hG).mp hr'
              have hlhs : r'.lhs = y := hrule ▸ (hG.isSound hq).lhs
              have hleft : ReflTransGen G.LeftStep (r.rhs.get ⟨n, hn⟩) y := by
                rw [← hlhs]
                exact ReflTransGen.mono (fun _ _ hstep => UnitStep.leftStep hstep) _ _ hchain
              have hpredicted := hsat.predicted_of_leftStep hleft hq hwait hget
              rw [hrule] at hpredicted
              exact before _ (hm ▸ rank_done_lt hG (hsat.fits hwait) (by omega) hname hget hr')
                (by omega) (Nat.le_refl _) (.inr ⟨y, q, hq, hrule⟩) hpredicted rfl
          · refine h.isMass_token hG hvalue htoken (by omega) (hchart hr) hget ?_ ?_
            · have hne : r.rhs.get ⟨n, hn⟩ ≠ .start := fun heq =>
                (hchart hr).start_not_mem hG h.goal_ne (heq ▸ List.get_mem _ _)
              exact hG.isTerminal_of_not_mem hne hname
            · exact earlier k (by omega) (by omega) (by omega) (by omega) hr hmem

end Run

/-! ## Sentences -/

section Sentence

variable {tokens : List Payload} {p : Parser ℝ W}

/-- The sentence probability is the sum of the inner scores of the final states. -/
theorem Fed.sentenceProbability?_eq_sum (hvalue : G.algebra.IsAdditive value)
    (h : Fed G goal tokens p) :
    p.sentenceProbability? = some ((finalStates p.chart p.position).map fun s =>
      value (p.chart.inner G.algebra s)).sum := by
  unfold sentenceProbability?
  rw [h.holds.grammar, hvalue.toProbability, hvalue.value_sum, List.map_map]
  rfl

/-- Behind some tokens, the sentence probability is the inner score of the start rule, complete. -/
theorem Fed.sentenceProbability?_eq (hG : G.Compiled solver) (hvalue : G.algebra.IsAdditive value)
    (h : Fed G goal tokens p) (hne : tokens ≠ []) :
    p.sentenceProbability? = some (amount G.algebra value Cell.inner
      (pastColumn p.chart.columns tokens.length)
      ⟨0, 1, tokens.length, startRule G.algebra goal⟩) := by
  have hholds := h.holds
  have hsat := hholds.run.saturated hG
  have hpos : tokens.length ≠ 0 := fun hlen => hne (List.length_eq_zero_iff.mp hlen)
  have hcases : ∀ s ∈ finalStates p.chart tokens.length,
      s = ⟨0, 1, tokens.length, startRule G.algebra goal⟩ := by
    intro s hs
    obtain ⟨hmem, hcomplete, hlhs, _⟩ := mem_finalStates.mp hs
    rcases hsat.final_cases hG hmem hcomplete hlhs with ⟨_, heq⟩ | ⟨hzero, _⟩
    · exact heq
    · exact absurd hzero hpos
  have hfinal : (⟨0, 1, tokens.length, startRule G.algebra goal⟩ : State ℝ W)
      ∈ statesAt p.chart.columns tokens.length →
      (⟨0, 1, tokens.length, startRule G.algebra goal⟩ : State ℝ W)
        ∈ finalStates p.chart tokens.length :=
    fun hmem => mem_finalStates.mpr ⟨hmem, rfl, rfl, rfl⟩
  rw [h.sentenceProbability?_eq_sum hvalue, hholds.position]
  rcases hsat.finalStates_cases hG tokens.length with hnil | ⟨s, hone⟩
  · rw [hnil]
    have hout : (⟨0, 1, tokens.length, startRule G.algebra goal⟩ : State ℝ W)
        ∉ statesAt p.chart.columns tokens.length := by
      intro hmem
      have := hfinal hmem
      rw [hnil] at this
      cases this
    rw [amount_of_not_mem hG hvalue (isScore_inner _) (hsat.shaped tokens.length)
      (s := ⟨0, 1, tokens.length, startRule G.algebra goal⟩) .start hout]
    rfl
  · have hs := hcases s (by rw [hone]; exact List.mem_singleton_self s)
    rw [hone, hs]
    simp only [List.map_cons, List.map_nil, List.sum_cons, List.sum_nil, add_zero]
    congr 2
    exact Column.inner_eq_cell _ _ _

/-- The weights of the derivations of some tokens add up to their mass, if that is finite. -/
theorem hasSum_weight (hG : G.Compiled solver) {x : Category} {tokens : List Payload} {m : ℝ}
    (hm : 0 ≤ m) (hmass : G.massOf x tokens = ENNReal.ofReal m) :
    HasSum (fun d : {d : Derivation ℝ W // d.IsParseOf G G.Uses x tokens} =>
      d.1.weight Rule.probability) m := by
  -- the sum over all derivations is one over the parses, since the others have no mass
  have hsubtype : (tsum fun d : {d : Derivation ℝ W // d.IsParseOf G G.Uses x tokens} =>
      ENNReal.ofReal (d.1.weight Rule.probability)) = ENNReal.ofReal m := by
    rw [← hmass]
    refine (tsum_subtype {d : Derivation ℝ W | d.IsParseOf G G.Uses x tokens}
      fun d => ENNReal.ofReal (d.weight Rule.probability)).trans (tsum_congr fun d => ?_)
    by_cases hd : d.IsParseOf G G.Uses x tokens
    · rw [Set.indicator_of_mem (show d ∈ {d | d.IsParseOf G G.Uses x tokens} from hd),
        if_pos ⟨hd.root_eq, hd.tokens_eq⟩, mass, if_pos hd.isParse]
    · rw [Set.indicator_of_notMem (show d ∉ {d | d.IsParseOf G G.Uses x tokens} from hd)]
      split
      · rename_i hof
        rw [mass, if_neg fun hparse => hd ⟨hparse, hof.1, hof.2⟩]
      · rfl
  have hfinite : (tsum fun d : {d : Derivation ℝ W // d.IsParseOf G G.Uses x tokens} =>
      ENNReal.ofReal (d.1.weight Rule.probability)) ≠ ∞ := by
    rw [hsubtype]
    exact ENNReal.ofReal_ne_top
  have hsum := ENNReal.hasSum_toReal hfinite
  rw [← ENNReal.tsum_toReal_eq fun _ => ENNReal.ofReal_ne_top, hsubtype,
    ENNReal.toReal_ofReal hm] at hsum
  have hweight : (fun d : {d : Derivation ℝ W // d.IsParseOf G G.Uses x tokens} =>
      (ENNReal.ofReal (d.1.weight Rule.probability)).toReal)
        = fun d => d.1.weight Rule.probability :=
    funext fun d => ENNReal.toReal_ofReal (weight_nonneg_of_uses hG d.2.isParse)
  rwa [hweight] at hsum

/-- **The sentence probability is the mass of all parses.** The derivations of the tokens from the
goal, by the rules that the parser uses, may be infinitely many; their weights have a sum, and that
is the sentence probability. It is zero where there are none. -/
theorem sentence_probability_is_total_weight {A : ScoreAlgebra ℝ W} (hG : G.Built solver A)
    (hsolver : solver.IsExact) (hvalue : A.IsAdditive value) (hfed : Fed G goal tokens p)
    (hne : tokens ≠ []) :
    ∃ total, p.sentenceProbability? = some total ∧
      HasSum (fun d : {d : Derivation ℝ W // d.IsParseOf G G.Uses goal tokens} =>
        d.1.weight Rule.probability) total ∧
      ((¬ ∃ d : Derivation ℝ W, d.IsParseOf G G.Uses goal tokens) → total = 0) := by
  obtain ⟨hcompiled, rfl⟩ := hG.compiled
  have hrun := hfed.holds.run
  have hlen : 1 ≤ (startRule G.algebra goal).rhs.length := Nat.le_refl 1
  obtain ⟨hnonneg, hmass⟩ := hrun.inner_eq_mass hcompiled hsolver hvalue (Nat.le_refl _)
    (Nat.zero_le _) hlen (.inl rfl) (hrun.saturated hcompiled).seed
  have hgoal : G.massOf goal tokens = ENNReal.ofReal (amount G.algebra value Cell.inner
      (pastColumn p.chart.columns tokens.length)
      ⟨0, 1, tokens.length, startRule G.algebra goal⟩) := by
    rw [hmass, show (startRule G.algebra goal).weight = G.algebra.one from rfl, hvalue.one,
      ENNReal.ofReal_one, one_mul, span_zero, List.take_length]
    exact (massAll_singleton goal tokens).symm
  have hsum := hasSum_weight hcompiled hnonneg hgoal
  refine ⟨_, hfed.sentenceProbability?_eq hcompiled hvalue hne, hsum, fun hno => ?_⟩
  have hempty : IsEmpty {d : Derivation ℝ W // d.IsParseOf G G.Uses goal tokens} :=
    ⟨fun d => hno ⟨d.1, d.2⟩⟩
  exact hsum.unique hasSum_empty

/-- A token that is derived by way of any number of unit rules. -/
theorem loop_sentence_has_a_total_weight :
    ∃ G p, loopGrammar = .ok G ∧ Fed G (.name "S") [.text "a"] p ∧
      ∃ total, p.sentenceProbability? = some total ∧
        HasSum (fun d : {d : Derivation ℝ ℝ // d.IsParseOf G G.Uses (.name "S") [.text "a"]} =>
          d.1.weight Rule.probability) total := by
  obtain ⟨G, hG, hrules⟩ := exists_loopGrammar
  obtain ⟨p, hp, _⟩ := exists_fed_loopGrammar hG hrules
  obtain ⟨total, htotal, hsum, _⟩ := sentence_probability_is_total_weight (built_loopGrammar hG)
    isExact_realSolver isAdditive_linearScores hp (List.cons_ne_nil _ _)
  exact ⟨G, p, hG, hp, total, htotal, hsum⟩

end Sentence

end Parser
end StochasticGrammar
