import StochasticGrammar.Proofs.Links
import StochasticGrammar.Proofs.Restoration

/-!
# Reading derivations back

Back pointers lead from a state to an earlier one and to the phrase found last. They never lead
back, so reading them ends, and what is read are derivations by the rules that the grammar was
given.

> `Tied.acyclic`: back pointers close no cycle.

> `Linked.exists_reads`: something is read from every state.

> `Reads.children_eq`, `Reads.isReading`: what is read is what the parser reads, and it is sound.
-/

namespace StochasticGrammar.Parser

open Relation (TransGen)

variable {P W : Type} [DecidableEq P] [DecidableEq W] [Probability P] {solver : Solver P}
  {G : Grammar P W} {goal : Category} {tokens : List Payload} {columns : List (Column P W)}

/-! ## Back pointers -/

/-- The best derivation of the first state leads back to the second one. -/
def leadsBack (columns : List (Column P W)) (s t : State P W) : Prop :=
  s ∈ statesAt columns s.position ∧ ∃ b, (pastColumn columns s.position).best? s = some b ∧
    (b.previous = some t ∨ b.completed = some t)

/-- A back pointer leads to an earlier position, or to another state of the same column. -/
theorem Tied.of_leadsBack (h : Tied G goal columns) {s t : State P W}
    (hst : leadsBack columns s t) :
    t ∈ statesAt columns t.position ∧ (t.position < s.position ∨
      t.position = s.position ∧ points (pastColumn columns s.position) s t) := by
  obtain ⟨hs, b, hb, ht⟩ := hst
  obtain ⟨c, hc, hcs, hbest⟩ := best?_of_mem_states (h.shaped s.position).distinct hs
  rw [hbest] at hb
  by_cases hdot : c.state.dot = 0
  · obtain ⟨b', hb', hbegun⟩ := (h.column s.position).begins hc hdot
    rw [hb] at hb'
    cases hb'
    rw [hbegun.previous, hbegun.completed] at ht
    rcases ht with ht | ht <;> cases ht
  · have hpoints : ∀ done, b.completed = some done →
        points (pastColumn columns s.position) s done :=
      fun done hdone => ⟨c, hc, hcs, b, hb, hdone⟩
    have hentry := (h.column s.position).entries hc hdot hb
    have hmem : ∀ {j : Nat} {p : Cell P W}, p ∈ pastColumn columns j →
        p.state ∈ statesAt columns p.state.position ∧ p.state.position = j := by
      intro j p hp
      have hpos := ((h.shaped j).fits p hp).position
      exact ⟨mem_states.mpr ⟨p, by rw [hpos]; exact hp, rfl⟩, hpos⟩
    -- the entry says more than is needed about the state, which stands in the way of its cases
    clear hbest hb hdot
    generalize c.state = x at hentry
    cases hentry with
    | scanned hk hp _ _ _ =>
      rcases ht with ht | ht
      · cases ht
        obtain ⟨hmem, hpos⟩ := hmem hp
        exact ⟨hmem, Or.inl (by omega)⟩
      · cases ht
    | completed hopen hp _ _ _ _ =>
      rcases ht with ht | ht
      · cases ht
        obtain ⟨hmem, hpos⟩ := hmem (List.mem_filter.mp hp).1
        exact ⟨hmem, Or.inl (hpos ▸ hopen.2.2)⟩
      · have hpoint := hpoints t ht
        cases ht
        obtain ⟨d, hd, rfl⟩ := mem_states.mp hopen.1
        obtain ⟨hmem, hpos⟩ := hmem hd
        exact ⟨hmem, Or.inr ⟨hpos, hpoint⟩⟩

/-- A way along back pointers leads to an earlier position, or it stays in a column. -/
theorem Tied.of_transGen (h : Tied G goal columns) {s t : State P W}
    (hst : TransGen (leadsBack columns) s t) :
    t.position < s.position ∨
      t.position = s.position ∧ TransGen (points (pastColumn columns s.position)) s t := by
  induction hst with
  | single hst =>
    exact (h.of_leadsBack hst).2.imp id fun ⟨hpos, hpoints⟩ => ⟨hpos, .single hpoints⟩
  | tail _ htu ih =>
    rcases (h.of_leadsBack htu).2 with hlt | ⟨hpos, hpoints⟩
    · rcases ih with hlt' | ⟨hpos', _⟩
      · exact Or.inl (hlt.trans hlt')
      · exact Or.inl (hpos' ▸ hlt)
    · rcases ih with hlt' | ⟨hpos', hway⟩
      · exact Or.inl (hpos ▸ hlt')
      · refine Or.inr ⟨hpos.trans hpos', hway.tail ?_⟩
        rw [← hpos']
        exact hpoints

/-- **Back pointers close no cycle.** -/
theorem Tied.acyclic (h : Tied G goal columns) : Acyclic (leadsBack columns) := by
  intro s hs
  rcases h.of_transGen hs with hlt | ⟨_, hway⟩
  · exact Nat.lt_irrefl _ hlt
  · exact (h.column s.position).acyclic s hway

/-- All states of a chart. -/
def allStates (columns : List (Column P W)) : List (State P W) :=
  columns.flatten.map (·.state)

omit [DecidableEq P] [DecidableEq W] [Probability P] in
theorem mem_allStates {k : Nat} {s : State P W} (hs : s ∈ statesAt columns k) :
    s ∈ allStates columns := by
  obtain ⟨c, hc, rfl⟩ := mem_states.mp hs
  exact List.mem_map_of_mem (mem_flatten_of_mem_pastColumn hc)

/-- How far back pointers lead from a state at most. -/
noncomputable def backDepth (columns : List (Column P W)) (s : State P W) : Nat :=
  depth (leadsBack columns) (allStates columns) s

theorem Tied.backDepth_lt (h : Tied G goal columns) {s t : State P W}
    (hst : leadsBack columns s t) : backDepth columns t < backDepth columns s :=
  h.acyclic.depth_lt hst (mem_allStates (h.of_leadsBack hst).1)

theorem Linked.tied (h : Linked G goal tokens columns) (hsat : Saturated G goal tokens columns) :
    Tied G goal columns :=
  ⟨hsat.shaped, fun k => (h k).toTiedColumn.imp fun _ _ => trivial⟩

omit [Probability P] in
theorem backDepth_le (columns : List (Column P W)) (s : State P W) :
    backDepth columns s ≤ countStates columns := by
  rw [countStates_eq]
  have hle := depth_le (leadsBack columns) (allStates columns) s
  rwa [allStates, List.length_map] at hle

/-! ## What is read -/

/-- The derivations of the symbols that a state has found, read along its back pointers. -/
inductive Reads (G : Grammar P W) (tokens : List Payload) (columns : List (Column P W)) :
    Nat → State P W → List (Derivation P W) → Prop
  | begins {k : Nat} {s : State P W} (hs : s ∈ statesAt columns k) (hdot : s.dot = 0) :
      Reads G tokens columns k s []
  | scanned {k : Nat} {p : Cell P W} {b : Backpointer P W} {c : Category} {token : Payload}
      {ds : List (Derivation P W)} (hs : p.state.advance (k + 1) ∈ statesAt columns (k + 1))
      (hp : p ∈ pastColumn columns k) (hb : p.best = some b) (htoken : tokens[k]? = some token)
      (hc : p.state.next? = some c) (hterm : G.isTerminal c = true)
      (haccepts : c.accepts token = .ok true)
      (hbest : (pastColumn columns (k + 1)).best? (p.state.advance (k + 1))
        = some ⟨.scanned, b.score, some p.state, none, some token⟩)
      (hds : Reads G tokens columns k p.state ds) :
      Reads G tokens columns (k + 1) (p.state.advance (k + 1)) (ds ++ [.leaf c token])
  | completed {k : Nat} {p : Cell P W} {b d : Backpointer P W} {done : State P W} {w : W}
      {ds es all : List (Derivation P W)} (hs : p.state.advance k ∈ statesAt columns k)
      (hp : p ∈ (pastColumn columns done.origin).waiting done.rule.lhs) (hb : p.best = some b)
      (hopen : IsOpen k (pastColumn columns k) done)
      (hd : (pastColumn columns k).best? done = some d) (hw : Attainable G w)
      (hle : ¬ Worse G d.score w)
      (hbest : (pastColumn columns k).best? (p.state.advance k)
        = some ⟨.completed, G.algebra.mul b.score w, some p.state, some done, none⟩)
      (hds : Reads G tokens columns done.origin p.state ds) (hes : Reads G tokens columns k done es)
      (hall : Restores G done.rule es all) :
      Reads G tokens columns k (p.state.advance k) (ds ++ [.node (sourceOf done.rule) all])

theorem Reads.mem {k : Nat} {s : State P W} {ds : List (Derivation P W)}
    (h : Reads G tokens columns k s ds) : s ∈ statesAt columns k := by
  cases h with
  | begins hs _ => exact hs
  | scanned hs => exact hs
  | completed hs => exact hs

/-- What is read from a state belongs to it. -/
structure IsReading (G : Grammar P W) (tokens : List Payload) (k : Nat) (s : State P W)
    (ds : List (Derivation P W)) : Prop where
  roots : ds.map Derivation.root = s.rule.rhs.take s.dot
  tokens : ds.flatMap Derivation.tokens = span tokens s.origin k
  parses : ∀ d ∈ ds, d.IsSourceParse G

omit [DecidableEq P] [DecidableEq W] in
theorem IsReading.roots_of_isComplete {k : Nat} {s : State P W} {ds : List (Derivation P W)}
    (h : IsReading G tokens k s ds) (hfits : Fits G goal k s) (hcomplete : s.isComplete = true) :
    ds.map Derivation.root = s.rule.rhs := by
  rw [h.roots, hfits.dot_eq_of_isComplete hcomplete, List.take_length]

/-- The node over what is read from a complete state. -/
theorem IsReading.isSourceParse [UnitProducts P] (hG : G.Compiled solver) {k : Nat} {s : State P W}
    {ds all : List (Derivation P W)} (h : IsReading G tokens k s ds) (hfits : Fits G goal k s)
    (hcomplete : s.isComplete = true) (hlhs : s.rule.lhs ≠ .start)
    (hall : Restores G s.rule ds all) :
    (Derivation.node (sourceOf s.rule) all).IsSourceParse G := by
  refine .node (hfits.rule.sourceOf_mem hG hlhs).1
    (hall.roots_eq (h.roots_of_isComplete hfits hcomplete)) fun d hd => ?_
  rcases hall.mem hd with hempty | hd
  · exact hempty.isSourceParse hG
  · exact h.parses d hd

/-- **What is read from a state belongs to it.** -/
theorem Reads.isReading [UnitProducts P] (hG : G.Compiled solver)
    (hsat : Saturated G goal tokens columns) {k : Nat} {s : State P W} {ds : List (Derivation P W)}
    (h : Reads G tokens columns k s ds) : IsReading G tokens k s ds := by
  induction h with
  | @begins k s hs hdot =>
    refine ⟨?_, ?_, fun d hd => (by cases hd)⟩
    · rw [hdot]
      rfl
    · rw [(hsat.fits hs).origin_eq hdot, span_self]
      rfl
  | @scanned k p b c token ds hs hp _ htoken hc hterm haccepts _ _ ih =>
    have hle := ((hsat.shaped k).fits p hp).origin_le
    refine ⟨?_, ?_, fun d hd => ?_⟩
    · show _ = p.state.rule.rhs.take (p.state.dot + 1)
      rw [take_succ_of_next hc, List.map_append, ih.roots]
      rfl
    · show _ = span tokens p.state.origin (k + 1)
      rw [List.flatMap_append, ih.tokens, ← span_append hle (Nat.le_succ k), span_succ htoken]
      rfl
    · rcases List.mem_append.mp hd with hd | hd
      · exact ih.parses d hd
      · rw [List.mem_singleton.mp hd]
        exact .leaf hterm haccepts
  | @completed k p b d done w ds es all hs hp _ hopen _ _ _ _ hds hes hall ih₁ ih₂ =>
    have hfits := hsat.fits hes.mem
    obtain ⟨hnames, hmem, hnext⟩ :=
      mem_names_of_waiting hG hsat.goal_ne (hsat.shaped done.origin) hfits hp
    have hlhs : done.rule.lhs ≠ .start := (hsat.fits hds.mem).next_ne_start hG hsat.goal_ne hnext
    have hle := ((hsat.shaped done.origin).fits p hmem).origin_le
    refine ⟨?_, ?_, fun e he => ?_⟩
    · show _ = p.state.rule.rhs.take (p.state.dot + 1)
      rw [take_succ_of_next hnext, List.map_append, ih₁.roots, List.map_singleton,
        Derivation.root_node, (hfits.rule.sourceOf_mem hG hlhs).2]
    · show _ = span tokens p.state.origin k
      rw [List.flatMap_append, ih₁.tokens, ← span_append hle (Nat.le_of_lt hopen.2.2), ← ih₂.tokens,
        ← hall.tokens_eq, List.flatMap_singleton, Derivation.tokens_node]
    · rcases List.mem_append.mp he with he | he
      · exact ih₁.parses e he
      · rw [List.mem_singleton.mp he]
        exact ih₂.isSourceParse hG hfits hopen.2.1 hlhs hall

/-- **Something is read from every state.** -/
theorem Linked.exists_reads [UnitProducts P] (hG : G.Compiled solver)
    (h : Linked G goal tokens columns) (hsat : Saturated G goal tokens columns) {k : Nat}
    {s : State P W} (hs : s ∈ statesAt columns k) : ∃ ds, Reads G tokens columns k s ds := by
  -- along the back pointers, which do not come back
  induction hd : backDepth columns s using Nat.strong_induction_on generalizing k s with
  | _ n ih =>
    subst hd
    by_cases hdot : s.dot = 0
    · exact ⟨[], .begins hs hdot⟩
    · obtain ⟨b, hb⟩ := h.found hG hsat hs
      have hpos := (hsat.fits hs).position
      have hback : ∀ t, b.previous = some t ∨ b.completed = some t →
          backDepth columns t < backDepth columns s := fun t ht =>
        (h.tied hsat).backDepth_lt ⟨by rw [hpos]; exact hs, b, by rw [hpos]; exact hb, ht⟩
      obtain ⟨c, hc, rfl, hbest⟩ := best?_of_mem_states (hsat.shaped k).distinct hs
      have hentry := (h k).entries hc hdot (hbest.symm.trans hb)
      clear hbest hc hdot hpos
      generalize c.state = x at hentry hs hb ih hback
      cases hentry with
      | @scanned j p b token hk hp hpb htoken htakes =>
        subst hk
        obtain ⟨y, hy, hterm, haccepts⟩ := htakes
        obtain ⟨ds, hds⟩ := ih _ (hback p.state (Or.inl rfl)) (mem_states.mpr ⟨p, hp, rfl⟩) rfl
        exact ⟨_, .scanned hs hp hpb htoken hy hterm haccepts hb hds⟩
      | @completed p b d done w hopen hp hpb hd hw hle =>
        have hmem := (List.mem_filter.mp hp).1
        obtain ⟨ds, hds⟩ := ih _ (hback p.state (Or.inl rfl)) (mem_states.mpr ⟨p, hmem, rfl⟩) rfl
        obtain ⟨es, hes⟩ := ih _ (hback done (Or.inr rfl)) hopen.1 rfl
        have hfits := hsat.fits hopen.1
        obtain ⟨all, hall⟩ := hfits.rule.exists_restores hG
          ((hes.isReading hG hsat).roots_of_isComplete hfits hopen.2.1)
        exact ⟨_, .completed hs hp hpb hopen hd hw hle hb hds hes hall⟩

/-! ## The parser reads it -/

omit [Probability P] in
theorem children_of_token {chart : Chart P W} {fuel : Nat} {s before : State P W} {kind : StepKind}
    {w : W} {completed : Option (State P W)} {token : Payload} {kids : List Tree} (hdot : s.dot ≠ 0)
    (hbest : chart.best? s = some ⟨kind, w, some before, completed, some token⟩)
    (hkids : children G chart fuel before = .ok kids) :
    children G chart (fuel + 1) s
      = .ok (kids ++ [.leaf ((s.rule.rhs[s.dot - 1]?).getD .start) token]) := by
  rw [children, if_neg hdot, hbest]
  simp only [hkids]
  rfl

omit [Probability P] in
theorem children_of_phrase {chart : Chart P W} {fuel : Nat} {s before done : State P W}
    {kind : StepKind} {w : W} {kids found : List Tree} {last : Tree} (hdot : s.dot ≠ 0)
    (hbest : chart.best? s = some ⟨kind, w, some before, some done, none⟩)
    (hkids : children G chart fuel before = .ok kids)
    (hfound : children G chart fuel done = .ok found) (hlast : nodeOf G done found = .ok last) :
    children G chart (fuel + 1) s = .ok (kids ++ [last]) := by
  rw [children, if_neg hdot, hbest]
  simp only [hkids, hfound, bind, Except.bind, hlast]
  rfl

/-- **The parser reads what is to be read**, given enough depth. -/
theorem Reads.children_eq (hG : G.Compiled solver) (hlinked : Linked G goal tokens columns)
    (hsat : Saturated G goal tokens columns) {k : Nat} {s : State P W} {ds : List (Derivation P W)}
    (h : Reads G tokens columns k s ds) {fuel : Nat} (hfuel : backDepth columns s < fuel) :
    children G ⟨columns⟩ fuel s = .ok (ds.map Derivation.toTree) := by
  induction h generalizing fuel with
  | begins hs hdot =>
    obtain ⟨fuel, rfl⟩ := Nat.exists_eq_add_one_of_ne_zero (Nat.ne_zero_of_lt hfuel)
    rw [children, if_pos hdot]
    rfl
  | @scanned k p b c token ds hs hp hb htoken hc hterm haccepts hbest hds ih =>
    obtain ⟨fuel, rfl⟩ := Nat.exists_eq_add_one_of_ne_zero (Nat.ne_zero_of_lt hfuel)
    have hback : backDepth columns p.state < backDepth columns (p.state.advance (k + 1)) :=
      (hlinked.tied hsat).backDepth_lt ⟨hs, _, hbest, Or.inl rfl⟩
    have hlast : (p.state.rule.rhs[p.state.dot + 1 - 1]?).getD .start = c := by
      rw [Nat.add_sub_cancel, ← State.next?, hc]
      rfl
    have hkids : children G ⟨columns⟩ fuel p.state = .ok (ds.map Derivation.toTree) := ih (by omega)
    have hchildren := children_of_token (Nat.succ_ne_zero _) hbest hkids
    rw [List.map_append]
    exact hchildren.trans (by rw [State.advance, hlast]; rfl)
  | @completed k p b d done w ds es all hs hp hb hopen hd hw hle hbest hds hes hall ih₁ ih₂ =>
    obtain ⟨fuel, rfl⟩ := Nat.exists_eq_add_one_of_ne_zero (Nat.ne_zero_of_lt hfuel)
    have hback : ∀ t, some p.state = some t ∨ some done = some t →
        backDepth columns t < backDepth columns (p.state.advance k) :=
      fun t ht => (hlinked.tied hsat).backDepth_lt ⟨hs, _, hbest, ht⟩
    have hbefore := hback p.state (Or.inl rfl)
    have hdone := hback done (Or.inr rfl)
    have hfits := hsat.fits hes.mem
    have hnext := (mem_names_of_waiting hG hsat.goal_ne (hsat.shaped done.origin) hfits hp).2.2
    have hlhs : done.rule.lhs ≠ .start := (hsat.fits hds.mem).next_ne_start hG hsat.goal_ne hnext
    have hkids : children G ⟨columns⟩ fuel p.state = .ok (ds.map Derivation.toTree) :=
      ih₁ (by omega)
    have hfound : children G ⟨columns⟩ fuel done = .ok (es.map Derivation.toTree) := ih₂ (by omega)
    have hchildren := children_of_phrase (Nat.succ_ne_zero _) hbest hkids hfound
      (nodeOf_eq hopen.2.1 hall)
    rw [List.map_append, List.map_singleton, Derivation.toTree_node,
      (hfits.rule.sourceOf_mem hG hlhs).2]
    exact hchildren

end StochasticGrammar.Parser
