import StochasticGrammar.Proofs.Exact
import StochasticGrammar.Proofs.Reachable

/-!
# Scores are final when they are used

Completion takes a state and hands its inner score on to whatever waits for it. That is sound only
if nothing is added to the score later. A move over a phrase leads to a state that starts before the
phrase, or it completes a unit rule, and those are never taken; states are taken by decreasing
origin; so no move leads to a state that has been taken. After completion, best derivations and
predictions leave the scores of complete states alone, and no later token touches the column.

> `Frozen`: a state has the scores it had.

> `Drained.frozen`: no turn changes what an earlier one has taken.

> `inner_scores_are_final_when_taken`: every state is taken once, by decreasing origin, and its
> scores never change again.
-/

namespace StochasticGrammar.Parser

variable {P W : Type} [DecidableEq P] [DecidableEq W]

/-- A state has the same scores in the second column as in the first one. -/
def Frozen (A : ScoreAlgebra P W) (s : State P W) (col col' : Column P W) : Prop :=
  col'.inner A s = col.inner A s ∧ col'.forward A s = col.forward A s

section Frozen

variable {A : ScoreAlgebra P W} {s : State P W} {col col' col'' : Column P W}

theorem Frozen.trans (h : Frozen A s col col') (h' : Frozen A s col' col'') :
    Frozen A s col col'' :=
  ⟨h'.1.trans h.1, h'.2.trans h.2⟩

theorem frozen_of_find?_eq (h : col'.find? s = col.find? s) : Frozen A s col col' := by
  unfold Frozen Column.inner Column.forward
  rw [h]
  exact ⟨rfl, rfl⟩

theorem frozen_of_mem (hcol : col.Distinct) (hcol' : col'.Distinct) {c c' : Cell P W} (hc : c ∈ col)
    (hc' : c' ∈ col') (hstate : c'.state = c.state) (hforward : c'.forward = c.forward)
    (hinner : c'.inner = c.inner) : Frozen A c.state col col' := by
  have hfind := Column.find?_of_mem hcol' hc'
  rw [hstate] at hfind
  unfold Frozen Column.inner Column.forward
  rw [hfind, Column.find?_of_mem hcol hc]
  exact ⟨hinner, hforward⟩

end Frozen

variable {G : Grammar P W} {past : List (Column P W)} {k : Nat}

/-! ## Turns that leave a state alone -/

/-- No move that a turn makes leads to the state. -/
def Spares (G : Grammar P W) (past : List (Column P W)) (k : Nat) (s : State P W) (u : Turn P W) :
    Prop :=
  ∀ m ∈ moves G past u.state (u.column.inner G.algebra u.state), ¬ (m.target k == s) = true

theorem find?_completeState {done s : State P W} {agenda : Agenda P W}
    (h : ∀ m ∈ moves G past done (agenda.column.inner G.algebra done),
      ¬ (m.target k == s) = true) :
    (completeState G past k done agenda).column.find? s = agenda.column.find? s := by
  rw [completeState_eq]
  generalize moves G past done (agenda.column.inner G.algebra done) = ms at h
  induction ms generalizing agenda with
  | nil => rfl
  | cons m ms ih =>
    rw [List.foldl_cons, ih fun m' hm' => h m' (List.mem_cons_of_mem _ hm')]
    show (agenda.column.alter G.algebra (m.target k) fun c => m.receive G.algebra c).find? s = _
    rw [Column.find?_alter G.algebra (Move.receive_state G.algebra · m),
      if_neg (h m List.mem_cons_self)]

/-- Turns that spare a state leave its cell as it is, from the first to the last. -/
theorem Turns.find?_eq {agenda : Agenda P W} {turns : List (Turn P W)} {out : Column P W}
    (h : Turns G past k agenda turns out) {s : State P W}
    (hspares : ∀ u ∈ turns, Spares G past k s u) :
    out.find? s = agenda.column.find? s ∧
      ∀ u ∈ turns, u.column.find? s = agenda.column.find? s := by
  induction h with
  | done => exact ⟨rfl, fun u hu => (by cases hu)⟩
  | @take col out done rest pushed turns _ _ ih =>
    have hfirst : (completeState G past k done ⟨col, rest⟩).column.find? s = col.find? s :=
      find?_completeState (hspares ⟨done, col, pushed⟩ List.mem_cons_self)
    obtain ⟨hout, hturns⟩ := ih fun u hu => hspares u (List.mem_cons_of_mem _ hu)
    rw [hfirst] at hout hturns
    refine ⟨hout, fun u hu => ?_⟩
    rcases List.mem_cons.mp hu with rfl | hu
    · rfl
    · exact hturns u hu

/-- The turns from one of them on. -/
theorem Turns.drop {agenda : Agenda P W} {before after : List (Turn P W)} {t : Turn P W}
    {out : Column P W} (h : Turns G past k agenda (before ++ t :: after) out) :
    ∃ rest, Turns G past k ⟨t.column, t.state :: rest⟩ (t :: after) out := by
  induction before generalizing agenda with
  | nil =>
    cases h with
    | take hpushed h => exact ⟨_, .take hpushed h⟩
  | cons u before ih =>
    cases h with
    | take _ h => exact ih h

variable [Probability P] {solver : Solver P} {goal : Category}

/-- A turn spares every pending state that starts no earlier than the state it takes. -/
theorem spares_of_origin_le [PositiveSums P] (hG : G.Compiled solver)
    (hpast : PastShaped G goal past) {u : Turn P W} {s : State P W} (hu : u.state.origin < k)
    (hrule : ChartRule G goal s.rule) (hs : isPending G k s = true)
    (hle : u.state.origin ≤ s.origin) : Spares G past k s u := by
  intro m hm heq
  obtain ⟨hmem, x, hx, hnext, _⟩ := mem_moves hG hm
  have hlands : Lands G goal k u.state.origin (m.target k) :=
    Starts.lands hG hpast hu ⟨hmem, x, hx, hnext⟩
  have htarget : m.target k = s :=
    (State.beq_iff_eq (discrete_chartRule hG) hlands.fits.rule hrule).mp heq
  have hlt := hlands.origin_lt (htarget ▸ hs)
  rw [htarget] at hlt
  omega

/-- **No turn changes what an earlier one has taken.** -/
theorem Drained.frozen [PositiveSums P] (hG : G.Compiled solver) (hpast : PastShaped G goal past)
    {base out : Column P W} {agenda : Agenda P W} {turns before after : List (Turn P W)}
    {t : Turn P W} (h : Drained G goal past k base [] agenda turns out)
    (hturns : turns = before ++ t :: after) :
    (∀ u ∈ t :: after, Spares G past k t.state u ∧ Frozen G.algebra t.state t.column u.column) ∧
      Frozen G.algebra t.state t.column out := by
  have hpending : ∀ u ∈ turns, u.state ∈ out.states ∧ isPending G k u.state = true :=
    fun u hu => (h.completed.mem_order u.state).mp (List.mem_map_of_mem hu)
  subst hturns
  have hsorted := (List.pairwise_append.mp h.sorted).2.1
  obtain ⟨hlater, _⟩ := List.pairwise_cons.mp hsorted
  have hin : ∀ u ∈ t :: after, u ∈ before ++ t :: after := fun u => List.mem_append_right _
  obtain ⟨hstates, htpending⟩ := hpending t (hin t List.mem_cons_self)
  have hrule : ChartRule G goal t.state.rule := by
    obtain ⟨c, hc, hcs⟩ := List.mem_map.mp hstates
    rw [← hcs]
    exact (h.completed.filled.shaped.fits c hc).rule
  have hspares : ∀ u ∈ t :: after, Spares G past k t.state u := by
    intro u hu
    have hlt := (isPending_iff.mp (hpending u (hin u hu)).2).2.1
    refine spares_of_origin_le hG hpast hlt hrule htpending ?_
    rcases List.mem_cons.mp hu with rfl | hu
    · exact Nat.le_refl _
    · exact hlater u hu
  obtain ⟨rest, hdrop⟩ := h.trace.drop
  obtain ⟨hout, hcolumns⟩ := hdrop.find?_eq hspares
  exact ⟨fun u hu => ⟨hspares u hu, frozen_of_find?_eq (hcolumns u hu)⟩, frozen_of_find?_eq hout⟩

/-! ## After the turns -/

/-- Completing best derivations and predicting leave the scores of what was there alone. -/
theorem Finished.frozen {read : Payload → Prop} {base mid col : Column P W}
    {order : List (State P W)} (h : Finished G goal past k read base mid col order) {s : State P W}
    (hs : s ∈ mid.states) :
    Frozen G.algebra s mid (completeBest G.algebra past (k + 1) mid) ∧
      Frozen G.algebra s mid col := by
  obtain ⟨c, hc, rfl⟩ := List.mem_map.mp hs
  have hmid := h.completed.filled.shaped.distinct
  obtain ⟨c', hc', hstate, hforward, hinner⟩ := exists_mem_of_core_eq h.core.symm hc
  exact ⟨frozen_of_mem hmid h.shaped.distinct hc hc' hstate hforward hinner,
    frozen_of_mem hmid h.predicted.shaped.distinct hc (h.predicted.keeps c' hc') hstate hforward
      hinner⟩

omit [Probability P] in
/-- No tokens, taken or not, change a column up to the parser's position. -/
theorem column_offers_of_le (p : Parser P W) (tokens : List Payload) {j : Nat}
    (hj : j ≤ p.position) : (p.offers tokens).1.chart.column j = p.chart.column j := by
  induction tokens generalizing p with
  | nil => rfl
  | cons token tokens ih =>
    have hle : p.position ≤ (p.step token).1.position := by
      rcases step_cases p token with
        ⟨column, e, _, hstep⟩ | ⟨column, _, hstep⟩ | ⟨column, s, scanned, _, hstep⟩ <;>
        rw [hstep]
      · exact Nat.le_refl _
      · exact Nat.le_refl _
      · exact Nat.le_succ _
    exact (ih _ (Nat.le_trans hj hle)).trans (column_step_of_le p token hj)

/-- **Inner scores are final when they are used.** A token that is taken makes the parser complete
the scores of the next column. It takes turns until no state is pending. Every complete state of the
column that spans something and is not of a unit rule becomes pending once and is taken once, and no
other state does; states are taken by decreasing origin; and from its turn on no move leads to a
state, whose scores stay what they were, in the turns that follow, when best derivations are
completed, when the column is predicted from, and whatever tokens the parser is offered later. -/
theorem inner_scores_are_final_when_taken [PositiveSums P] {A : ScoreAlgebra P W}
    (hG : G.Built solver A) {p q : Parser P W} (hp : Reachable G goal p) {token : Payload}
    (hstep : p.step token = (q, .ok true)) :
    ∃ base scanned turns, p.meets token = (base, .ok scanned) ∧
      let k := p.position + 1
      let mid := completeScores G p.past k base
      let best := completeBest A p.past k mid
      let pushed := pendingOf G k base ++ turns.flatMap (·.pushed)
      let taken := turns.map (·.state)
      q.chart.column k = predict G k best ∧
      Turns G p.past k ⟨base, pendingOf G k base⟩ turns mid ∧
      (pushed.Nodup ∧ ∀ s, s ∈ pushed ↔
        s ∈ mid.states ∧ s.isComplete = true ∧ s.origin < k ∧ G.isUnit s.rule = false) ∧
      (taken.Nodup ∧ ∀ s, s ∈ taken ↔
        s ∈ mid.states ∧ s.isComplete = true ∧ s.origin < k ∧ G.isUnit s.rule = false) ∧
      taken.Pairwise (fun s t => t.origin ≤ s.origin) ∧
      ∀ before t after, turns = before ++ t :: after →
        (∀ u ∈ t :: after, Spares G p.past k t.state u ∧ Frozen A t.state t.column u.column) ∧
        Frozen A t.state t.column mid ∧ Frozen A t.state t.column best ∧
        ∀ more, (q.offers more).1.chart.inner A t.state = t.column.inner A t.state ∧
          (q.offers more).1.chart.forward A t.state = t.column.forward A t.state := by
  obtain ⟨hC, rfl⟩ := hG.compiled
  have hstands := hp.stands hC
  have hpast := hstands.course.pastShaped hC
  obtain ⟨base, scanned, order, hmeets, _, hcolumn, hfinished⟩ := hstands.finished hC hstep
  obtain ⟨turns, hdrained⟩ := drained_completeScores hC hpast hfinished.swept.shaped
  have hnodup := hdrained.completed.nodup
  have hmem := hdrained.completed.mem_order
  rw [List.nil_append] at hnodup hmem
  have hperm := hdrained.trace.perm
  have htaken : ∀ s, s ∈ turns.map (·.state) ↔
      s ∈ Column.states (completeScores G p.past (p.position + 1) base) ∧ s.isComplete = true ∧
        s.origin < p.position + 1 ∧ G.isUnit s.rule = false :=
    fun s => (hmem s).trans (and_congr_right fun _ => isPending_iff)
  refine ⟨base, scanned, turns, hmeets, hcolumn, hdrained.trace,
    ⟨hperm.nodup_iff.mpr hnodup, fun s => hperm.mem_iff.trans (htaken s)⟩, ⟨hnodup, htaken⟩,
    List.pairwise_map.mpr hdrained.sorted, fun before t after hturns => ?_⟩
  obtain ⟨hlater, hmid⟩ := hdrained.frozen hC hpast hturns
  have hstates : t.state ∈ Column.states (completeScores G p.past (p.position + 1) base) := by
    refine ((htaken t.state).mp (List.mem_map_of_mem ?_)).1
    rw [hturns]
    exact List.mem_append_right _ List.mem_cons_self
  obtain ⟨hbest, hcol⟩ := hfinished.frozen hstates
  refine ⟨hlater, hmid, hmid.trans hbest, fun more => ?_⟩
  -- the column is behind the parser now, and nothing reaches it there
  have hposition : t.state.position = p.position + 1 := by
    obtain ⟨c, hc, hcs⟩ := List.mem_map.mp hstates
    rw [← hcs]
    exact (hfinished.completed.filled.shaped.fits c hc).position
  have hlast : (q.offers more).1.chart.column (p.position + 1) = q.chart.column (p.position + 1) :=
    column_offers_of_le q more (Nat.le_of_eq (position_of_taken hstep).symm)
  unfold Chart.inner Chart.forward
  rw [hposition, hlast]
  exact hmid.trans hcol

/-- A phrase that ends with another phrase. -/
def nestedBuilder : Except (GrammarError ℚ) (Builder ℚ ℚ) := do
  let b := Builder.empty (linearScores ℚ) false
  let b ← b.add ⟨.plain, .name "S", [.name "a", .name "B"]⟩ 1
  let b ← b.add ⟨.plain, .name "B", [.name "b"]⟩ (1 / 2)
  b.add ⟨.plain, .name "B", [.name "b", .name "B"]⟩ (1 / 2)

/-- The grammar of these rules. -/
def nestedGrammar : Except (GrammarError ℚ) (Grammar ℚ ℚ) := do
  (← nestedBuilder).build rationalSolver

theorem built_nestedGrammar {G : Grammar ℚ ℚ} (h : nestedGrammar = .ok G) :
    G.Built rationalSolver (linearScores ℚ) := by
  obtain ⟨b, hb, hG⟩ := bind_eq_ok.mp h
  obtain ⟨b₁, h₁, hb⟩ := bind_eq_ok.mp hb
  obtain ⟨b₂, h₂, hb⟩ := bind_eq_ok.mp hb
  exact ⟨b, .add (.add (.add (.empty false) h₁) h₂) hb, hG⟩

set_option maxRecDepth 100000 in
/-- Completing the inner phrase makes the outer one pending, which is taken in its turn and keeps
its scores. -/
theorem nested_phrase_scores_are_final :
    ∃ G p q base turns, nestedGrammar = .ok G ∧ Reachable G (.name "S") p ∧
      p.step (.text "b") = (q, .ok true) ∧
      Turns G p.past (p.position + 1) ⟨base, pendingOf G (p.position + 1) base⟩ turns
        (completeScores G p.past (p.position + 1) base) ∧
      ∃ t ∈ turns, ∃ u ∈ turns, u.state ∈ t.pushed ∧
        ∀ more, (q.offers more).1.chart.inner (linearScores ℚ) u.state
          = u.column.inner (linearScores ℚ) u.state := by
  have hcheck : (nestedGrammar.toOption.any fun G => (create G (.name "S")).toOption.any fun p =>
      let p := (p.step (.text "a")).1
      let base := (p.meets (.text "b")).1
      decide ((p.step (.text "b")).2.toOption = some true) &&
        (completeScores G p.past (p.position + 1) base).states.any fun s =>
          isPending G (p.position + 1) s &&
            (pendingOf G (p.position + 1) base).all fun t => decide (t ≠ s)) = true := by
    decide +kernel
  obtain ⟨G, hG, hcheck⟩ := any_toOption.mp hcheck
  obtain ⟨p₀, hp₀, hcheck⟩ := any_toOption.mp hcheck
  obtain ⟨htaken, hcheck⟩ := Bool.and_eq_true_iff.mp hcheck
  obtain ⟨s, hs, hcheck⟩ := List.any_eq_true.mp hcheck
  obtain ⟨hpending, hnew⟩ := Bool.and_eq_true_iff.mp hcheck
  have hreach : Reachable G (.name "S") (p₀.step (.text "a")).1 := .step (.create hp₀) _
  generalize (p₀.step (.text "a")).1 = p at *
  have hstep := step_eq_of_answer (of_decide_eq_true htaken)
  obtain ⟨base, scanned, turns, hmeets, _, htrace, ⟨_, hpushed⟩, ⟨_, htakenmem⟩, _, hfinal⟩ :=
    inner_scores_are_final_when_taken (built_nestedGrammar hG) hreach hstep
  rw [hmeets] at hs hnew
  have hmem := isPending_iff.mp hpending
  have hlater : s ∉ pendingOf G (p.position + 1) base := fun hin =>
    of_decide_eq_true (List.all_eq_true.mp hnew s hin) rfl
  -- the outer phrase was not there at the start, so a turn has made it pending
  obtain ⟨t, ht, hts⟩ := List.mem_flatMap.mp ((List.mem_append.mp
    ((hpushed s).mpr ⟨hs, hmem⟩)).resolve_left hlater)
  obtain ⟨u, hu, rfl⟩ := List.mem_map.mp ((htakenmem s).mpr ⟨hs, hmem⟩)
  obtain ⟨before, after, hturns⟩ := List.append_of_mem hu
  exact ⟨G, p, _, base, turns, hG, hreach, hstep, htrace, t, ht, u, hu, hts,
    fun more => ((hfinal before u after hturns).2.2.2 more).1⟩

end StochasticGrammar.Parser
