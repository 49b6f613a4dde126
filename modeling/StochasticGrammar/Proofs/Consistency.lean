import StochasticGrammar.Proofs.Exact
import StochasticGrammar.Proofs.Reachable
import StochasticGrammar.Proofs.Reading

/-!
# Best derivations at rest

The search for best derivations queues a complete state again whenever its derivation has become
better, and unit rules may lead it around a cycle. It still ends, because no score rises along a
cycle, and when it has ended the derivations of the whole chart agree with each other: every score
is what its parts are worth now, no part has anything better to offer, and back pointers never lead
around, so that a tree can be read along them.

> `MonotoneScores`: what is asked of the scores. No law of associativity is among it.

> `Tied.consistent`: the best derivations of a chart agree with each other.

> `Tied.exists_children`: reading a tree along the back pointers ends.

> `best_queue_ends_consistent`: the queue runs empty and leaves such a chart.
-/

namespace StochasticGrammar.Parser

variable {P W : Type}

/-- Scores are totally ordered, a product with a score keeps their order, and multiplying by the
weight of a rule never increases a score. -/
structure MonotoneScores [Probability P] (G : Grammar P W) : Prop extends NeverRaises G where
  eq_of_not_worse : ∀ {a b : W}, Attainable G a → Attainable G b → ¬ Worse G a b → ¬ Worse G b a →
    a = b
  mul_mono : ∀ {a b c : W}, Attainable G a → Attainable G b → Attainable G c → ¬ Worse G b c →
    ¬ Worse G (G.algebra.mul a b) (G.algebra.mul a c)

variable [DecidableEq P] [DecidableEq W]

/-- The best derivations of a chart agree with each other. -/
structure Consistent (G : Grammar P W) (chart : Chart P W) : Prop where
  /-- The score of a derivation over a complete state is the product of the scores that the state
  before it and the complete state have now. -/
  current : ∀ k, ∀ s ∈ (chart.column k).states, ∀ b, chart.best? s = some b → b.kind = .completed →
    ∃ before done v w, b.previous = some before ∧ b.completed = some done ∧
      chart.best? before = some v ∧ chart.best? done = some w ∧
      b.score = G.algebra.mul v.score w.score
  /-- No complete state has anything better to offer to a state that waits for it. -/
  settled : ∀ k, ∀ done ∈ (chart.column k).states, done.isComplete = true → done.origin < k →
    ∀ before ∈ ((chart.column done.origin).waiting done.rule.lhs).states,
    ∀ v w, chart.best? before = some v → chart.best? done = some w →
      ∃ t, chart.best? (before.advance k) = some t ∧
        G.algebra.lt t.score (G.algebra.mul v.score w.score) = false
  /-- Back pointers never lead around. -/
  wellFounded : WellFounded fun t s => leadsBack chart.columns s t

variable [Probability P] {solver : Solver P} {G : Grammar P W} {goal : Category}
  {columns : List (Column P W)}

/-! ## Scores -/

theorem Tied.best?_of_mem (h : Tied G goal columns) {k : Nat} {c : Cell P W}
    (hc : c ∈ pastColumn columns k) : Chart.best? ⟨columns⟩ c.state = c.best := by
  unfold Chart.best?
  rw [((h.shaped k).fits c hc).position]
  exact Column.best?_of_mem (h.shaped k).distinct hc

/-- A derivation over a complete state has the score that its parts have now: the state cannot have
become better since without having made its offer again. -/
theorem Tied.score_eq (h : Tied G goal columns) (hscores : MonotoneScores G) {k : Nat}
    {p : Cell P W} {b d : Backpointer P W} {done : State P W} {w : W}
    (hopen : IsOpen k (pastColumn columns k) done)
    (hp : p ∈ (pastColumn columns done.origin).waiting done.rule.lhs) (hb : p.best = some b)
    (hd : (pastColumn columns k).best? done = some d) (hw : Attainable G w)
    (hle : ¬ Worse G d.score w) {t : Backpointer P W}
    (ht : (pastColumn columns k).best? (p.state.advance k) = some t)
    (hscore : t.score = G.algebra.mul b.score w) :
    t.score = G.algebra.mul b.score d.score := by
  have hbatt : Attainable G b.score := by
    refine (h.column done.origin).attainable p.state b ?_
    rw [Column.best?_of_mem (h.shaped done.origin).distinct (List.mem_filter.mp hp).1, hb]
  have hdatt := (h.column k).attainable done d hd
  obtain ⟨t', ht', hnot⟩ := (h.column k).settled hopen d hd p hp b hb
  rw [ht] at ht'
  cases ht'
  rw [hscore] at hnot ⊢
  exact hscores.eq_of_not_worse (.mul hbatt hw) (.mul hbatt hdatt) hnot
    (hscores.mul_mono hbatt hdatt hw hle)

/-- **The best derivations of a chart agree with each other.** -/
theorem Tied.consistent (h : Tied G goal columns) (hscores : MonotoneScores G) :
    Consistent G ⟨columns⟩ := by
  refine ⟨fun k s hs b hb hkind => ?_,
    fun k done hdone hcomplete hlt before hbefore v w hv hw => ?_, ?_⟩
  · obtain ⟨c, hc, rfl⟩ := mem_states.mp hs
    have hcb := h.best?_of_mem hc
    rw [hb] at hcb
    by_cases hdot : c.state.dot = 0
    · obtain ⟨b', hb', hbegun⟩ := (h.column k).begins hc hdot
      rw [← hcb] at hb'
      cases hb'
      exact absurd hkind hbegun.kind
    · have hcol : (pastColumn columns k).best? c.state = some b := by
        rw [Column.best?_of_mem (h.shaped k).distinct hc, hcb]
      have hentry := (h.column k).entries hc hdot hcb.symm
      clear hcb hb hdot
      generalize c.state = s at hentry hcol
      cases hentry with
      | scanned => cases hkind
      | @completed p b d done w hopen hp hpb hd hw hle =>
        have hscore := h.score_eq hscores hopen hp hpb hd hw hle hcol rfl
        obtain ⟨e, he, rfl⟩ := mem_states.mp hopen.1
        refine ⟨p.state, e.state, b, d, rfl, rfl, ?_, ?_, hscore⟩
        · rw [h.best?_of_mem (List.mem_filter.mp hp).1]
          exact hpb
        · rw [h.best?_of_mem he, ← Column.best?_of_mem (h.shaped k).distinct he]
          exact hd
  · obtain ⟨d, hd, rfl⟩ := mem_states.mp hdone
    obtain ⟨p, hp, rfl⟩ := mem_states.mp hbefore
    rw [h.best?_of_mem (List.mem_filter.mp hp).1] at hv
    rw [h.best?_of_mem hd, ← Column.best?_of_mem (h.shaped k).distinct hd] at hw
    obtain ⟨t, ht, hnot⟩ := (h.column k).settled ⟨hdone, hcomplete, hlt⟩ w hw p hp v hv
    exact ⟨t, ht, Bool.eq_false_iff.mpr hnot⟩
  · exact Subrelation.wf (fun {t s} hst => h.backDepth_lt hst)
      (InvImage.wf (backDepth columns) Nat.lt_wfRel.wf)

/-! ## Trees -/

omit [DecidableEq P] [DecidableEq W] [Probability P] in
/-- Whether symbols can be put back depends only on how many others have been found. -/
theorem restore_of_length_eq {omitted : List Int} {places : List (Category × Nat)}
    {found found' all : List Tree} (hlen : found.length = found'.length)
    (h : restore G omitted places found = .ok all) :
    ∃ all', restore G omitted places found' = .ok all' := by
  induction places generalizing found found' all with
  | nil => exact ⟨[], rfl⟩
  | cons place places ih =>
    obtain ⟨c, i⟩ := place
    unfold restore at h ⊢
    split at h
    · next homitted =>
      rw [if_pos homitted]
      obtain ⟨tree, htree, h⟩ := bind_eq_ok.mp h
      obtain ⟨rest, hrest, _⟩ := bind_eq_ok.mp h
      obtain ⟨rest', hrest'⟩ := ih hlen hrest
      exact ⟨tree :: rest', by rw [htree, hrest']; rfl⟩
    · next hfound =>
      rw [if_neg hfound]
      cases found with
      | nil => cases h
      | cons t found =>
        cases found' with
        | nil => cases hlen
        | cons t' found' =>
          obtain ⟨rest, hrest, _⟩ := bind_eq_ok.mp h
          obtain ⟨rest', hrest'⟩ := ih (Nat.succ.inj hlen) hrest
          exact ⟨t' :: rest', by simp only [hrest']; rfl⟩

/-- Every state has a node over as many children as it has found symbols. -/
theorem exists_nodeOf [UnitProducts P] (hG : G.Compiled solver) {k : Nat} {s : State P W}
    (hs : Fits G goal k s) {kids : List Tree} (hkids : kids.length = s.dot) :
    ∃ tree, nodeOf G s kids = .ok tree := by
  cases hcomplete : s.isComplete with
  | false => exact ⟨_, by unfold nodeOf; rw [hcomplete]⟩
  | true =>
    -- any derivations of the right-hand side will do to find out what is put back
    have hroots : (s.rule.rhs.map fun c => (Derivation.leaf c (.integer 0) : Derivation P W)).map
        Derivation.root = s.rule.rhs := by
      rw [List.map_map]
      exact List.map_id _
    obtain ⟨all, hall⟩ := hs.rule.exists_restores hG hroots
    have hnode := nodeOf_eq hcomplete hall
    unfold nodeOf at hnode ⊢
    rw [hcomplete] at hnode ⊢
    cases hsource : s.rule.source? with
    | none => exact ⟨_, rfl⟩
    | some source =>
      simp only [hsource] at hnode
      obtain ⟨trees, htrees, _⟩ := bind_eq_ok.mp hnode
      have hlen : ((s.rule.rhs.map fun c => (Derivation.leaf c (.integer 0) : Derivation P W)).map
          Derivation.toTree).length = kids.length := by
        rw [hkids, hs.dot_eq_of_isComplete hcomplete, List.length_map, List.length_map]
      obtain ⟨trees', htrees'⟩ := restore_of_length_eq hlen htrees
      exact ⟨.node s.rule.lhs trees', by simp only [htrees']; rfl⟩

/-- **Reading along the back pointers ends**, with one child for every symbol that was found. -/
theorem Tied.exists_children [UnitProducts P] (hG : G.Compiled solver) (h : Tied G goal columns)
    {k : Nat} {s : State P W} (hs : s ∈ statesAt columns k)
    (hbest : ∃ b, (pastColumn columns k).best? s = some b) :
    ∃ kids, kids.length = s.dot ∧
      ∀ fuel, backDepth columns s < fuel → children G ⟨columns⟩ fuel s = .ok kids := by
  -- the back pointers behind a state are fewer than those of the state itself
  induction hd : backDepth columns s using Nat.strong_induction_on generalizing k s with
  | _ n ih =>
    subst hd
    by_cases hdot : s.dot = 0
    · refine ⟨[], hdot.symm, fun fuel hfuel => ?_⟩
      obtain ⟨fuel, rfl⟩ := Nat.exists_eq_add_one_of_ne_zero (Nat.ne_zero_of_lt hfuel)
      rw [children, if_pos hdot]
    · obtain ⟨b, hb⟩ := hbest
      obtain ⟨c, hc, rfl⟩ := mem_states.mp hs
      have hcb := Column.best?_of_mem (h.shaped k).distinct hc
      rw [hb] at hcb
      have hchart : Chart.best? ⟨columns⟩ c.state = some b := (h.best?_of_mem hc).trans hcb.symm
      have hpos := ((h.shaped k).fits c hc).position
      have hback : ∀ t, b.previous = some t ∨ b.completed = some t →
          backDepth columns t < backDepth columns c.state := fun t ht =>
        h.backDepth_lt ⟨by rw [hpos]; exact hs, b, by rw [hpos]; exact hb, ht⟩
      have hentry := (h.column k).entries hc hdot hcb.symm
      clear hcb hb hc hs hpos
      generalize c.state = s at *
      cases hentry with
      | @scanned j p b token hk hp hpb _ _ =>
        have hlt := hback p.state (Or.inl rfl)
        obtain ⟨kids, hlen, hkids⟩ := ih _ hlt (mem_states.mpr ⟨p, hp, rfl⟩)
          ⟨b, by rw [Column.best?_of_mem (h.shaped j).distinct hp]; exact hpb⟩ rfl
        refine ⟨kids ++ [.leaf ((p.state.rule.rhs[p.state.dot + 1 - 1]?).getD .start) token],
          by rw [List.length_append, hlen]; rfl, fun fuel hfuel => ?_⟩
        obtain ⟨fuel, rfl⟩ := Nat.exists_eq_add_one_of_ne_zero (Nat.ne_zero_of_lt hfuel)
        exact children_of_token hdot hchart (hkids fuel (by omega))
      | @completed p b d done w hopen hp hpb hd _ _ =>
        have hmem := (List.mem_filter.mp hp).1
        have hlt := hback p.state (Or.inl rfl)
        have hlt' := hback done (Or.inr rfl)
        obtain ⟨kids, hlen, hkids⟩ := ih _ hlt (mem_states.mpr ⟨p, hmem, rfl⟩)
          ⟨b, by rw [Column.best?_of_mem (h.shaped done.origin).distinct hmem]; exact hpb⟩ rfl
        obtain ⟨found, hlen', hfound⟩ := ih _ hlt' hopen.1 ⟨d, hd⟩ rfl
        obtain ⟨e, he, hes⟩ := mem_states.mp hopen.1
        obtain ⟨last, hlast⟩ := exists_nodeOf hG (hes ▸ (h.shaped k).fits e he) hlen'
        refine ⟨kids ++ [last], by rw [List.length_append, hlen]; rfl, fun fuel hfuel => ?_⟩
        obtain ⟨fuel, rfl⟩ := Nat.exists_eq_add_one_of_ne_zero (Nat.ne_zero_of_lt hfuel)
        exact children_of_phrase hdot hchart (hkids fuel (by omega)) (hfound fuel (by omega)) hlast

/-! ## The queue of a step -/

section Step

variable {p q : Parser P W} {token : Payload}

theorem Stands.tied [PositiveSums P] (hG : G.Compiled solver) (hnever : NeverRaises G)
    (h : Stands G goal p) (hclear : Clear p) : Tied G goal p.chart.columns := by
  refine (h.course.tied hG hnever).congr fun k => ?_
  rcases Nat.lt_or_ge p.position k with hlt | hge
  · have hlen := Stands.length_past h.length
    have hpast : pastColumn p.past k = [] := pastColumn_of_ge (by omega)
    rw [hpast]
    exact hclear k hlt
  · exact (pastColumn_past p hge).symm

/-- The best derivations of the chart when the queue has run empty, before anything is predicted. -/
theorem Stands.tied_best [PositiveSums P] (hG : G.Compiled solver) (hnever : NeverRaises G)
    (h : Stands G goal p) {base mid col : Column P W} {order : List (State P W)}
    (hfinished : Finished G goal p.past p.position (fun _ => True) base mid col order) :
    Tied G goal (p.write (completeBest G.algebra p.past (p.position + 1) mid)).chart.columns := by
  have hlen := Stands.length_past h.length
  have htied := h.course.tied hG hnever
  have hcolumn := hfinished.tiedColumn_best hG hnever h.course.goal_ne htied.shaped htied.pastReady
  have hshaped := hfinished.shaped
  rw [← hlen] at hcolumn hshaped
  refine (htied.snoc hshaped hcolumn).congr fun k => ?_
  show (p.write _).chart.column k = _
  rcases Nat.lt_trichotomy k (p.position + 1) with hlt | rfl | hgt
  · rw [column_write_of_ne _ (Nat.ne_of_lt hlt), pastColumn_append_left (hlen ▸ hlt),
      pastColumn_past p (Nat.le_of_lt_succ hlt)]
  · rw [Stands.column_write_next, ← hlen, pastColumn_append_self]
  · rw [column_write_of_ne _ (Nat.ne_of_gt hgt), h.rest k hgt, pastColumn_of_ge]
    rw [List.length_append, List.length_singleton]
    omega

/-- **The queue of best derivations runs empty and leaves a consistent chart.** A token that is
taken makes the parser complete the best derivations of the next column, wherever it stood before.
Taking the states of the queue one at a time comes to an end; then every derivation over a complete
state has the score that its parts have now, no complete state has anything better to offer, and
back pointers never lead around. That also holds of the chart that the token leaves, where reading
the tree of any state with a derivation ends. -/
theorem best_queue_ends_consistent [PositiveSums P] [UnitProducts P] {A : ScoreAlgebra P W}
    (hG : G.Built solver A) (hscores : MonotoneScores G) (hp : Reachable G goal p)
    (hstep : p.step token = (q, .ok true)) :
    ∃ base scanned, p.meets token = (base, .ok scanned) ∧
      let k := p.position + 1
      let mid := completeScores G p.past k base
      let best := completeBest A p.past k mid
      q.chart.column k = predict G k best ∧
      Ends A p.past k ⟨mid, mid.states.filter fun s => s.isComplete && decide (s.origin < k)⟩ best ∧
      Consistent G (p.write best).chart ∧ Consistent G q.chart ∧
      ∀ j, ∀ s ∈ (q.chart.column j).states, q.chart.best? s ≠ none →
        ∃ kids tree, (∀ n, q.chart.size + 2 ≤ n → children G q.chart n s = .ok kids) ∧
          nodeOf G s kids = .ok tree := by
  obtain ⟨hC, rfl⟩ := hG.compiled
  have hnever := hscores.toNeverRaises
  have hstands := hp.stands hC
  obtain ⟨base, scanned, order, hmeets, _, hcolumn, hfinished⟩ := hstands.finished hC hstep
  have htied := hstands.course.tied hC hnever
  have himproved := hfinished.improved hC hnever hstands.course.goal_ne htied.shaped htied.pastReady
  have hq : Tied G goal q.chart.columns := by
    obtain ⟨base, scanned, hmeets, rfl⟩ := eq_moved_of_step hstep
    exact (hstands.moved (hstands.meets hC hmeets) scanned).tied hC hnever
      (hstands.clear_moved base scanned)
  refine ⟨base, scanned, hmeets, hcolumn, himproved.ends,
    (hstands.tied_best hC hnever hfinished).consistent hscores, hq.consistent hscores,
    fun j s hs hbest => ?_⟩
  obtain ⟨c, hc, rfl⟩ := mem_states.mp hs
  obtain ⟨b, hb⟩ := Option.ne_none_iff_exists'.mp hbest
  have hcb := hq.best?_of_mem hc
  rw [← Column.best?_of_mem (hq.shaped j).distinct hc] at hcb
  obtain ⟨kids, hlen, hkids⟩ := hq.exists_children hC hs ⟨b, hcb.symm.trans hb⟩
  obtain ⟨tree, htree⟩ := exists_nodeOf hC ((hq.shaped j).fits c hc) hlen
  refine ⟨kids, tree, fun n hn => hkids n ?_, htree⟩
  have hdepth := backDepth_le q.chart.columns c.state
  unfold Chart.size at hn
  omega

end Step

/-! ## Exact scores -/

/-- Scores that stand for different numbers are monotone. -/
theorem monotoneScores_of_isExact {K W : Type} [Field K] [LinearOrder K] [IsStrictOrderedRing K]
    [DecidableEq W] {solver : Solver K} {G : Grammar K W} {value : W → K} (hG : G.Compiled solver)
    (hexact : G.algebra.IsExact value) (hinj : Function.Injective value) : MonotoneScores G := by
  refine ⟨neverRaises_of_isExact hG hexact, fun {a b} _ _ hab hba => hinj ?_,
    fun {a b c} ha _ _ hbc => ?_⟩
  · unfold Worse at hab hba
    rw [hexact.lt, not_lt] at hab hba
    exact le_antisymm hba hab
  · unfold Worse at hbc ⊢
    rw [hexact.lt, not_lt] at hbc ⊢
    rw [hexact.mul, hexact.mul]
    exact mul_le_mul_of_nonneg_left hbc (value_nonneg hG hexact ha)

set_option maxRecDepth 100000 in
/-- The unit rule of the small grammar leads around, and the chart is still consistent. -/
theorem small_queue_ends_consistent :
    ∃ G p q, smallGrammar = .ok G ∧ Reachable G (.name "S") p ∧
      p.step (.text "a") = (q, .ok true) ∧ Consistent G q.chart ∧
      ∃ s ∈ (q.chart.column 2).states, s.rule.lhs = .name "S" ∧ s.rule.rhs = [.name "S"] ∧
        ∃ b, q.chart.best? s = some b ∧ b.kind = .completed ∧
          ∃ kids tree, children G q.chart (q.chart.size + 2) s = .ok kids ∧
            nodeOf G s kids = .ok tree := by
  have hcheck : (smallGrammar.toOption.any fun G => (create G (.name "S")).toOption.any fun p =>
      let p := (p.step (.text "a")).1
      let q := (p.step (.text "a")).1
      decide ((p.step (.text "a")).2.toOption = some true) &&
        (q.chart.column 2).states.any fun s =>
          decide (s.rule.lhs = .name "S" ∧ s.rule.rhs = [.name "S"]) &&
            (q.chart.best? s).any fun b => decide (b.kind = .completed)) = true := by
    decide +kernel
  obtain ⟨G, hG, hcheck⟩ := any_toOption.mp hcheck
  obtain ⟨p₀, hp₀, hcheck⟩ := any_toOption.mp hcheck
  obtain ⟨htaken, hcheck⟩ := Bool.and_eq_true_iff.mp hcheck
  obtain ⟨s, hs, hcheck⟩ := List.any_eq_true.mp hcheck
  obtain ⟨hrule, hcheck⟩ := Bool.and_eq_true_iff.mp hcheck
  have hreach : Reachable G (.name "S") (p₀.step (.text "a")).1 := .step (.create hp₀) _
  generalize (p₀.step (.text "a")).1 = p at *
  have hstep := step_eq_of_answer (of_decide_eq_true htaken)
  have hbuilt := built_smallGrammar hG
  obtain ⟨hC, hA⟩ := hbuilt.compiled
  have hscores : MonotoneScores G :=
    monotoneScores_of_isExact hC (hA ▸ isExact_linearScores) Function.injective_id
  obtain ⟨base, scanned, _, _, _, _, hconsistent, htrees⟩ :=
    best_queue_ends_consistent hbuilt hscores hreach hstep
  cases hbest : (p.step (.text "a")).1.chart.best? s with
  | none =>
    rw [hbest] at hcheck
    cases hcheck
  | some b =>
    rw [hbest] at hcheck
    obtain ⟨hlhs, hrhs⟩ := of_decide_eq_true hrule
    obtain ⟨kids, tree, hkids, htree⟩ := htrees 2 s hs (by rw [hbest]; exact Option.some_ne_none b)
    exact ⟨G, p, _, hG, hreach, hstep, hconsistent, s, hs, hlhs, hrhs, b, hbest,
      of_decide_eq_true hcheck, kids, tree, hkids _ (Nat.le_refl _), htree⟩

end StochasticGrammar.Parser
