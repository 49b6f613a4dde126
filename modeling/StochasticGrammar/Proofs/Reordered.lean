import StochasticGrammar.Proofs.Optimal
import StochasticGrammar.Proofs.Prefixes
import StochasticGrammar.Proofs.RuleOrder

/-!
# Charts of reordered rules

The order of rules settles in which order states come into a column, how sums are bracketed and
which of two derivations is tried first. Still the charts of two grammars with the same rules hold
the same states, and each with the same scores: what is in a chart is the least that is closed under
the steps of a parser, an inner score is a mass of derivations, a forward score is handed down from
the states that called for it, and a best score is the best of all.

> `Run.mem_statesAt_iff`: the same states.

> `Run.innerAt_eq`, `Run.forwardAt_eq`, `Run.best_eq`: with the same scores.
-/

namespace StochasticGrammar

open scoped Classical
open Relation (ReflTransGen)
open Grammar (Reordered)

variable {W : Type} [DecidableEq W] {solver : Solver ℝ} {G G' : Grammar ℝ W} {goal : Category}
  {value : W → ℝ}

/-! ## Single steps -/

namespace Grammar.Reordered

variable (h : Reordered solver G G')
include h

theorem leftStep {x y : Category} (hxy : G.LeftStep x y) : G'.LeftStep x y := by
  obtain ⟨q, hq, rest, hrhs, hy⟩ := hxy
  exact ⟨q, h.mem_productionsOf.mpr hq, rest, hrhs, by rwa [h.isNonterminal_eq]⟩

theorem unitStep {x y : Category} (hxy : G.UnitStep x y) : G'.UnitStep x y := by
  obtain ⟨q, hq, hrhs, hy⟩ := hxy
  exact ⟨q, h.mem_productionsOf.mpr hq, hrhs, by rwa [h.isNonterminal_eq]⟩

theorem takes_iff {token : Payload} {s : State ℝ W} :
    Parser.Takes G' token s ↔ Parser.Takes G token s := by
  unfold Parser.Takes
  simp only [h.isTerminal_eq]

theorem emptyStart_eq (goal : Category) : Parser.emptyStart G' goal = Parser.emptyStart G goal := by
  unfold Parser.emptyStart
  rw [h.algebra, h.emptyProbability, h.bestEmptyProbability_eq]

theorem begins {r : Rule ℝ W} {w : W} (hw : Parser.Begins G goal r w) :
    Parser.Begins G' goal r w := by
  cases hw with
  | start =>
    rw [← h.algebra]
    exact .start
  | empty hnull hq => exact .empty (by rwa [h.isNullable_eq]) (by rwa [h.emptyStart_eq])
  | used hq => exact .used (h.mem_productionsOf.mpr hq)

/-- All derivations weigh as much together. -/
theorem massAll_eq (symbols : List Category) (tokens : List Payload) :
    G'.massAll symbols tokens = G.massAll symbols tokens := by
  have hparse : ∀ {G G' : Grammar ℝ W}, Reordered solver G G' → ∀ {d : Derivation ℝ W},
      d.IsParse G G.Uses → d.IsParse G' G'.Uses := by
    intro G G' h d hd
    induction hd with
    | leaf hterm haccepts => exact .leaf (by rwa [h.isTerminal_eq]) haccepts
    | node hr hroots _ ih => exact .node (h.uses_iff.mpr hr) hroots ih
  have hmass : G'.mass = G.mass := by
    funext d
    unfold mass
    exact if_congr ⟨hparse h.symm, hparse h⟩ rfl rfl
  unfold massAll
  rw [hmass]

end Grammar.Reordered

namespace Parser

/-! ## States -/

variable {tokens : List Payload} {columns columns' : List (Column ℝ W)}

/-- A complete state is moved over along a chain of unit rules. -/
theorem Saturated.complete_of_unitStep (hG : G.Compiled solver)
    (h : Saturated G goal tokens columns) {k : Nat} {d : State ℝ W} (hd : d ∈ statesAt columns k)
    (hcomplete : d.isComplete = true) (hlt : d.origin < k) {x : Category}
    (hchain : ReflTransGen G.UnitStep x d.rule.lhs) {s : State ℝ W}
    (hs : s ∈ statesAt columns d.origin) (hnext : s.next? = some x) :
    s.advance k ∈ statesAt columns k := by
  induction hchain using ReflTransGen.head_induction_on generalizing s with
  | refl => exact h.complete hd hcomplete hlt hs hnext
  | @head x y hstep _ ih =>
    obtain ⟨q, hq, hrhs, _⟩ := hstep
    have hpredicted := h.predict hs hnext hq
    have hmoved := ih hpredicted (by rw [State.next?, State.predicted, hrhs]; rfl)
    refine h.complete hmoved ?_ hlt hs (by rw [hnext, ← (hG.isSound hq).lhs]; rfl)
    simp [State.isComplete, State.advance, State.predicted, hrhs]

theorem Saturated.mem_of_reordered (h : Reordered solver G G')
    (hsat : Saturated G goal tokens columns) (hsat' : Saturated G' goal tokens columns') {k : Nat}
    {s : State ℝ W} (hs : s ∈ statesAt columns k) : s ∈ statesAt columns' k := by
  refine hsat.induction (motive := fun k s => s ∈ statesAt columns' k) h.compiled ?_ ?_ ?_ ?_ ?_ hs
  · rw [← h.algebra]
    exact hsat'.seed
  · intro q hnull hq
    obtain ⟨q', hq', hmem⟩ := hsat'.empty (by rwa [h.isNullable_eq])
    rw [h.emptyStart_eq, hq] at hq'
    cases hq'
    exact hmem
  · intro k d z x q _ hd hz hchain hq
    exact hsat'.predicted_of_leftStep
      (ReflTransGen.mono (fun _ _ hstep => h.leftStep hstep) _ _ hchain)
      (h.mem_productionsOf.mpr hq) hd hz
  · intro k p token _ hp htoken htakes
    exact hsat'.scan hp htoken (h.takes_iff.mpr htakes)
  · intro k d p x _ hd hpending _ hp hx hchain
    obtain ⟨hcomplete, hlt, _⟩ := origin_lt_of_isPending hpending
    exact hsat'.complete_of_unitStep h.compiled' hd hcomplete hlt
      (ReflTransGen.mono (fun _ _ hstep => h.unitStep hstep) _ _ hchain) hp hx

variable (h : Reordered solver G G') (hrun : Run G goal tokens columns)
  (hrun' : Run G' goal tokens columns')
include h hrun hrun'

/-- **Both charts hold the same states.** -/
theorem Run.mem_statesAt_iff {k : Nat} {s : State ℝ W} :
    s ∈ statesAt columns' k ↔ s ∈ statesAt columns k :=
  ⟨(hrun'.saturated h.compiled').mem_of_reordered h.symm (hrun.saturated h.compiled),
    (hrun.saturated h.compiled).mem_of_reordered h (hrun'.saturated h.compiled')⟩

theorem Run.kernel_eq : ∀ k, kernel columns' k = kernel columns k := by
  intro k
  unfold kernel
  congr 1
  ext s
  rw [List.mem_toFinset, List.mem_toFinset, hrun.mem_statesAt_iff h hrun']

/-! ## Inner scores -/

variable (hsolver : solver.IsExact) (hvalue : G.algebra.IsAdditive value)
include hvalue

include hsolver in
/-- **Every state has the same inner score.** -/
theorem Run.innerAt_eq {k : Nat} {s : State ℝ W} (hs : s ∈ statesAt columns k) :
    innerAt G' value columns' k s = innerAt G value columns k s := by
  have hvalue' : G'.algebra.IsAdditive value := h.algebra ▸ hvalue
  have hsat := hrun.saturated h.compiled
  have hs' := (hrun.mem_statesAt_iff h hrun').mpr hs
  rcases hsat.rule_cases hs with hrule | ⟨rfl, _, q, _, rfl⟩
  · have hfits := hsat.fits hs
    have hk : k ≤ tokens.length := hrun.le_length_of_mem hs
    have hrule' : s.rule = startRule G'.algebra goal ∨ G'.Uses s.rule := by
      rwa [h.algebra, h.uses_iff]
    have hmem := hsat.predicted_mem h.compiled hs
    have hmem' := (hrun.mem_statesAt_iff h hrun').mpr hmem
    have hmass := hrun.inner_eq_mass h.compiled hsolver hvalue hk hfits.origin_le hfits.dot_le hrule
      hmem
    have hmass' := hrun'.inner_eq_mass h.compiled' hsolver hvalue' hk hfits.origin_le hfits.dot_le
      hrule' hmem'
    unfold IsMass at hmass hmass'
    rw [h.massAll_eq] at hmass'
    have hstate : (⟨s.origin, s.dot, k, s.rule⟩ : State ℝ W) = s := by
      rw [← hfits.position]
    rw [hstate] at hmass hmass'
    exact Measures.eq hmass' hmass
  · exact (hrun'.inner_predicted h.compiled' hvalue' hs').trans
      (hrun.inner_predicted h.compiled hvalue hs).symm

/-! ## Forward scores -/

include hsolver in
/-- A state that was predicted with the same forward score has the same one wherever it gets to. -/
theorem Run.forwardAt_eq_of_origin {k : Nat} {s : State ℝ W} (hs : s ∈ statesAt columns k)
    (hrule : s.rule = startRule G.algebra goal ∨ G.Uses s.rule)
    (horigin : forwardAt G' value columns' s.origin (.predicted s.rule s.origin)
      = forwardAt G value columns s.origin (.predicted s.rule s.origin)) :
    forwardAt G' value columns' k s = forwardAt G value columns k s := by
  have hvalue' : G'.algebra.IsAdditive value := h.algebra ▸ hvalue
  have hinner := hrun.innerAt_eq h hrun' hsolver hvalue hs
  have hfits := (hrun.saturated h.compiled).fits hs
  have hfits' := (hrun'.saturated h.compiled').fits ((hrun.mem_statesAt_iff h hrun').mpr hs)
  have hweight := value_weight_pos h.compiled hvalue hrule
  obtain ⟨i, n, position, r⟩ := s
  obtain rfl : position = k := hfits.position
  refine mul_right_cancel₀ hweight.ne' ?_
  exact (hrun'.lockstep h.compiled' hvalue' i n position hfits'.rule).trans
    ((congrArg₂ (· * ·) horigin hinner).trans
      (hrun.lockstep h.compiled hvalue i n position hfits.rule).symm)

/-- The states a chart begins with are given the same forward score. -/
theorem Run.forwardAt_seed_eq {s : State ℝ W} (hs : s ∈ kernel columns 0) :
    forwardAt G' value columns' 0 s = forwardAt G value columns 0 s := by
  have hvalue' : G'.algebra.IsAdditive value := h.algebra ▸ hvalue
  have hs' : s ∈ kernel columns' 0 := by rwa [hrun.kernel_eq h hrun']
  rcases hrun.seed_cases h.compiled hvalue hs with ⟨heq, hone⟩ | ⟨q, hq, heq, hweight, _⟩
  · rw [hone, heq, ← h.algebra]
    exact hrun'.forwardAt_start h.compiled' hvalue'
  · rcases hrun'.seed_cases h.compiled' hvalue' hs' with ⟨heq', _⟩ | ⟨q', hq', _, hweight', _⟩
    · have hrhs : s.rule.rhs = [] := heq ▸ (isEmptyStart_of_emptyStart hq).rhs
      rw [heq'] at hrhs
      cases hrhs
    · rw [h.emptyStart_eq, hq] at hq'
      cases hq'
      rw [hweight, hweight']

include hsolver in
/-- The states that others are predicted from were predicted earlier themselves, or seeded. -/
theorem Run.forwardAt_kernel_eq {k : Nat} (hearlier : ∀ i < k, ∀ s ∈ statesAt columns i,
      forwardAt G' value columns' i s = forwardAt G value columns i s) {s : State ℝ W}
    (hs : s ∈ kernel columns k) :
    forwardAt G' value columns' k s = forwardAt G value columns k s := by
  have hsat := hrun.saturated h.compiled
  obtain ⟨hmem, hkernel⟩ := Finset.mem_filter.mp hs
  rw [List.mem_toFinset] at hmem
  have hfits := hsat.fits hmem
  rcases Nat.eq_zero_or_pos s.dot with hdot | hdot
  · have hlhs : s.rule.lhs = .start := not_not.mp fun hlhs => hkernel ⟨hdot, hlhs⟩
    obtain rfl : 0 = k := (hfits.start_origin hlhs).symm.trans (hfits.origin_eq hdot)
    exact hrun.forwardAt_seed_eq h hrun' hvalue hs
  · refine hrun.forwardAt_eq_of_origin h hrun' hsolver hvalue hmem ?_ ?_
    · refine (hsat.rule_cases hmem).resolve_right ?_
      rintro ⟨_, _, q, _, rfl⟩
      exact Nat.lt_irrefl 0 hdot
    · exact hearlier _ (hfits.origin_lt hdot) _ (hsat.predicted_mem h.compiled hmem)

omit hvalue in
theorem Run.demand_eq {k : Nat} (hkernel : ∀ s ∈ kernel columns k,
      forwardAt G' value columns' k s = forwardAt G value columns k s) (x : Category) :
    demand G' value columns' k x = demand G value columns k x := by
  unfold demand
  rw [hrun.kernel_eq h hrun']
  refine Finset.sum_congr rfl fun s hs => ?_
  rw [hkernel s hs]
  congr 1
  unfold cornerOf
  split
  · rfl
  · rw [h.leftCornerScore_eq]

include hsolver in
/-- **Every state has the same forward score.** -/
theorem Run.forwardAt_eq {k : Nat} {s : State ℝ W} (hs : s ∈ statesAt columns k) :
    forwardAt G' value columns' k s = forwardAt G value columns k s := by
  have hvalue' : G'.algebra.IsAdditive value := h.algebra ▸ hvalue
  induction k using Nat.strong_induction_on generalizing s with
  | _ k earlier =>
    -- first the kernel, whose states start earlier, and then what is predicted from it
    have hkernel : ∀ t ∈ kernel columns k,
        forwardAt G' value columns' k t = forwardAt G value columns k t := fun t ht =>
      hrun.forwardAt_kernel_eq h hrun' hsolver hvalue (fun i hi s hs => earlier i hi hs) ht
    by_cases hs' : IsKernel s
    · exact hkernel s (Finset.mem_filter.mpr ⟨List.mem_toFinset.mpr hs, hs'⟩)
    · obtain ⟨hr, heq⟩ := hrun.eq_predicted h.compiled (List.mem_toFinset.mpr hs) hs'
      have huses := h.compiled.mem_usedRules.mp hr
      rw [heq, forwardAt_predicted h.compiled hvalue hrun k huses,
        forwardAt_predicted h.compiled' hvalue' hrun' k (h.uses_iff.mpr huses),
        hrun.demand_eq h hrun' hkernel]

/-! ## Best scores -/

omit h hrun hrun' hvalue in
/-- A rule has one score to begin with. -/
theorem Begins.unique (hG : G.Compiled solver) {r : Rule ℝ W} {w w' : W} (hw : Begins G goal r w)
    (hw' : Begins G goal r w') : w = w' := by
  cases hw' with
  | start =>
    rcases hw.start_cases hG rfl with ⟨_, hw⟩ | ⟨_, q, hq, hrule, _⟩
    · exact hw
    · have hrhs : q.rule.rhs = [] := (isEmptyStart_of_emptyStart hq).rhs
      rw [← hrule] at hrhs
      cases hrhs
  | empty hnull hq =>
    have hempty := isEmptyStart_of_emptyStart hq
    rcases hw.start_cases hG hempty.lhs with ⟨hrule, _⟩ | ⟨_, q', _, _, hw⟩
    · have hrhs : _ = [] := hempty.rhs
      rw [State.predicted, hrule] at hrhs
      cases hrhs
    · rw [hw, emptyStart_eq_ok hq]
  | used hq => exact hw.eq_best hG hq

/-- The best scores of one chart are closed under the steps of a derivation in the other. -/
theorem Run.boundsScores_best (hlinked' : Linked G' goal tokens columns') :
    BoundsScores G goal tokens columns value fun k s =>
      ((pastColumn columns' k).best? s).elim 0 fun b => value b.score := by
  have hsat' := hrun'.saturated h.compiled'
  have hexact' : G'.algebra.IsExact value := h.algebra ▸ hvalue.toIsExact
  have hmem : ∀ {k s}, s ∈ statesAt columns k → s ∈ statesAt columns' k := fun hs =>
    (hrun.mem_statesAt_iff h hrun').mpr hs
  refine ⟨fun {k s} hs => ?_, fun {k s w} hs hdot hbegins => ?_,
    fun {k s token} hs htoken htakes => ?_,
    fun {k s done} hs hnext hopen => ?_⟩
  · obtain ⟨b, hb⟩ := hlinked'.found h.compiled' hsat' (hmem hs)
    rw [hb]
    exact value_nonneg h.compiled' hexact' ((hlinked' k).attainable s b hb)
  · obtain ⟨b, hb, hbegins'⟩ := hlinked'.begins_of_dot_eq hsat' (hmem hs) hdot
    rw [hb, Begins.unique h.compiled' (h.begins hbegins) hbegins']
    rfl
  · obtain ⟨b, hb⟩ := hlinked'.found h.compiled' hsat' (hmem hs)
    obtain ⟨t, ht, hmoved⟩ :=
      hlinked'.value_scanned hexact' hsat' (hmem hs) htoken (h.takes_iff.mpr htakes) hb
    rw [hb, ht]
    exact hmoved
  · have hdone := hmem hopen.1
    obtain ⟨b, hb⟩ := hlinked'.found h.compiled' hsat' (hmem hs)
    obtain ⟨d, hd⟩ := hlinked'.found h.compiled' hsat' hdone
    obtain ⟨t, ht, hsettled⟩ :=
      hlinked'.value_settled hexact' hsat' ⟨hdone, hopen.2⟩ hd (hmem hs) hnext hb
    rw [hb, hd, ht]
    exact hsettled

/-- What one chart has as the best score of a state, the other has at least. -/
theorem Run.best_le {k : Nat} {s : State ℝ W} (hs : s ∈ statesAt columns k) {b b' : Backpointer ℝ W}
    (hb : (pastColumn columns k).best? s = some b)
    (hb' : (pastColumn columns' k).best? s = some b') : value b.score ≤ value b'.score := by
  have hexact' : G'.algebra.IsExact value := h.algebra ▸ hvalue.toIsExact
  have hsat := hrun.saturated h.compiled
  have hlinked := hrun.linked h.compiled (neverRaises_of_isExact h.compiled hvalue.toIsExact)
  have hlinked' := hrun'.linked h.compiled' (neverRaises_of_isExact h.compiled' hexact')
  obtain ⟨ds, hreads⟩ := hlinked.exists_reads h.compiled hsat hs
  have hle := hreads.value_le h.compiled hvalue.toIsExact hlinked hsat
    (hrun.boundsScores_best h hrun' hvalue hlinked') hb
  rwa [hb'] at hle

/-- **Every state has the same best score.** -/
theorem Run.best_eq {k : Nat} {s : State ℝ W} (hs : s ∈ statesAt columns k) :
    ∃ b b', (pastColumn columns k).best? s = some b ∧ (pastColumn columns' k).best? s = some b' ∧
      value b'.score = value b.score := by
  have hexact' : G'.algebra.IsExact value := h.algebra ▸ hvalue.toIsExact
  have hs' := (hrun.mem_statesAt_iff h hrun').mpr hs
  have hlinked := hrun.linked h.compiled (neverRaises_of_isExact h.compiled hvalue.toIsExact)
  have hlinked' := hrun'.linked h.compiled' (neverRaises_of_isExact h.compiled' hexact')
  obtain ⟨b, hb⟩ := hlinked.found h.compiled (hrun.saturated h.compiled) hs
  obtain ⟨b', hb'⟩ := hlinked'.found h.compiled' (hrun'.saturated h.compiled') hs'
  refine ⟨b, b', hb, hb', le_antisymm ?_ ?_⟩
  · exact hrun'.best_le h.symm hrun (h.algebra ▸ hvalue) hs' hb' hb
  · exact hrun.best_le h hrun' hvalue hs hb hb'

end Parser
end StochasticGrammar
