import StochasticGrammar.Proofs.Exact
import StochasticGrammar.Proofs.Items

/-!
# What a chart recognises

The states of a chart are the items of its tokens, whatever the arithmetic that its scores are
computed in. Whether tokens are accepted, and which terminals may come next, are read off them.
-/

namespace StochasticGrammar.Parser

open Grammar (Rewrites Yields Reaches)

variable {P W : Type} [DecidableEq P] [DecidableEq W] [Probability P] {solver : Solver P}
  {G : Grammar P W} {goal : Category} {tokens : List Payload} {columns : List (Column P W)}

/-! ## The empty start -/

/-- The state of the start symbol over the empty sentence. -/
structure IsEmptyStart (s : State P W) : Prop where
  lhs : s.rule.lhs = .start
  rhs : s.rule.rhs = []
  origin : s.origin = 0
  dot : s.dot = 0
  position : s.position = 0

/-- A state stands on the start rule or on a rule that the parser uses, or it is the empty start. -/
theorem Saturated.rule_cases (h : Saturated G goal tokens columns) {k : Nat}
    {s : State P W} (hs : s ∈ statesAt columns k) :
    (s.rule = startRule G.algebra goal ∨ G.Uses s.rule) ∨
      k = 0 ∧ G.isNullable goal = true ∧
        ∃ q, emptyStart G goal = .ok q ∧ s = .predicted q.rule 0 := by
  have hfits := h.fits hs
  have hrule := hfits.rule
  generalize hr : s.rule = r at hrule
  cases hrule with
  | start => exact Or.inl (Or.inl rfl)
  | used hq => exact Or.inl (Or.inr ⟨_, _, hq, rfl⟩)
  | @empty q hnull hq =>
    have hrhs : q.rule.rhs = [] := by
      rw [emptyStart_eq_ok hq]
      rfl
    have hlhs : q.rule.lhs = .start := by
      rw [emptyStart_eq_ok hq]
      rfl
    have hdot : s.dot = 0 := by
      have hle := hfits.dot_le
      rw [hr, hrhs] at hle
      exact Nat.le_zero.mp hle
    have horigin : s.origin = 0 := hfits.start_origin (by rw [hr]; exact hlhs)
    have hk : k = 0 := by rw [← hfits.origin_eq hdot, horigin]
    refine Or.inr ⟨hk, hnull, q, hq, ?_⟩
    have hpos := hfits.position
    rw [hk] at hpos
    cases s
    simp_all [State.predicted]

omit [DecidableEq P] [DecidableEq W] in
theorem isEmptyStart_of_emptyStart {q : Production P W} (hq : emptyStart G goal = .ok q) :
    IsEmptyStart (State.predicted q.rule 0) := by
  rw [emptyStart_eq_ok hq]
  exact ⟨rfl, rfl, rfl, rfl, rfl⟩

/-- Only the empty start has nothing on its right side. -/
theorem Saturated.eq_of_isEmptyStart (hG : G.Compiled solver) (h : Saturated G goal tokens columns)
    {k : Nat} {s : State P W} (hs : s ∈ statesAt columns k) (hempty : IsEmptyStart s) :
    G.isNullable goal = true ∧ ∃ q, emptyStart G goal = .ok q ∧ s = .predicted q.rule 0 := by
  rcases h.rule_cases hs with (hstart | ⟨x, q, hq, hqr⟩) | ⟨_, hrest⟩
  · have hrhs := hempty.rhs
    rw [hstart] at hrhs
    cases hrhs
  · have hrhs := hempty.rhs
    rw [← hqr] at hrhs
    exact absurd hrhs (hG.isSound hq).rhs_ne
  · exact hrest

/-! ## Acceptance -/

/-- Tokens are accepted when the start rule or the empty start is complete over all of them. -/
theorem Saturated.exists_final_iff (hG : G.Compiled solver) (h : Saturated G goal tokens columns) :
    (∃ s ∈ statesAt columns tokens.length, s.isComplete = true ∧ s.rule.lhs = .start ∧ s.origin = 0)
      ↔ Yields G goal [goal] tokens ∨ tokens = [] ∧ G.isNullable goal = true := by
  constructor
  · rintro ⟨s, hs, hcomplete, hlhs, horigin⟩
    rcases h.rule_cases hs with (hstart | ⟨x, q, hq, hqr⟩) | ⟨hk, hnull, _⟩
    · left
      have hfound := (h.sound hG hs).found
      have hdot := (h.fits hs).dot_eq_of_isComplete hcomplete
      rw [hdot, List.take_length, hstart, horigin, span_zero, List.take_length] at hfound
      exact hfound
    · rw [← hqr] at hlhs
      exact absurd hlhs (lhs_ne_start_of_used hG hq)
    · exact Or.inr ⟨List.eq_nil_of_length_eq_zero hk, hnull⟩
  · rintro (hy | ⟨rfl, hnull⟩)
    · have hfound :=
        h.found_of_yields hG hy h.seed (List.append_nil _).symm (List.append_nil _).symm
      rw [Nat.zero_add] at hfound
      exact ⟨_, hfound, rfl, rfl, rfl⟩
    · obtain ⟨q, hq, hmem⟩ := h.empty hnull
      have hempty := isEmptyStart_of_emptyStart hq
      refine ⟨_, hmem, ?_, hempty.lhs, rfl⟩
      unfold State.isComplete
      rw [hempty.rhs]
      rfl

omit [DecidableEq P] [DecidableEq W] [Probability P] in
theorem mem_finalStates {chart : Chart P W} {n : Nat} {s : State P W} :
    s ∈ finalStates chart n ↔ s ∈ statesAt chart.columns n ∧
      s.isComplete = true ∧ s.rule.lhs = .start ∧ s.origin = 0 := by
  have hstart : ∀ c : Category, (c == .start) = true ↔ c = .start := by
    intro c
    rw [BEq.comm, Category.beq_iff_eq_of_plain (by simp), eq_comm]
  unfold finalStates Chart.completed
  rw [List.mem_filter, List.mem_filter, Bool.and_eq_true, hstart, beq_iff_eq, and_assoc, and_assoc]
  rfl

omit [DecidableEq P] [DecidableEq W] [Probability P] in
theorem isAccepted_iff {p : Parser P W} :
    p.isAccepted = true ↔ ∃ s ∈ statesAt p.chart.columns p.position,
      s.isComplete = true ∧ s.rule.lhs = .start ∧ s.origin = 0 := by
  unfold isAccepted
  rw [Bool.not_eq_true', List.isEmpty_eq_false_iff_exists_mem]
  exact exists_congr fun s => mem_finalStates

/-- What a final state can be: over some tokens the complete start rule, over none the empty
start. -/
theorem Saturated.final_cases (hG : G.Compiled solver) (h : Saturated G goal tokens columns)
    {n : Nat} {s : State P W} (hs : s ∈ statesAt columns n) (hcomplete : s.isComplete = true)
    (hlhs : s.rule.lhs = .start) :
    (0 < n ∧ s = ⟨0, 1, n, startRule G.algebra goal⟩) ∨
      n = 0 ∧ G.isNullable goal = true ∧
        ∃ q, emptyStart G goal = .ok q ∧ s = .predicted q.rule 0 := by
  rcases h.rule_cases hs with (hstart | ⟨x, q, hq, hqr⟩) | hempty
  · left
    have hfits := h.fits hs
    have hdot := hfits.dot_eq_of_isComplete hcomplete
    rw [hstart] at hdot
    have horigin := hfits.start_origin hlhs
    have hlt := hfits.origin_lt (by rw [hdot]; exact Nat.one_pos)
    have hpos := hfits.position
    refine ⟨by omega, ?_⟩
    cases s
    simp_all [startRule, Rule.rhs, Rule.head, Rule.body]
  · rw [← hqr] at hlhs
    exact absurd hlhs (lhs_ne_start_of_used hG hq)
  · exact Or.inr hempty

/-- There is at most one final state. -/
theorem Saturated.finalStates_cases (hG : G.Compiled solver) {chart : Chart P W}
    (h : Saturated G goal tokens chart.columns) (n : Nat) :
    finalStates chart n = [] ∨ ∃ s, finalStates chart n = [s] := by
  have hunique : ∀ s ∈ finalStates chart n, ∀ t ∈ finalStates chart n, s = t := by
    intro s hs t ht
    obtain ⟨hs, hcomplete, hlhs, _⟩ := mem_finalStates.mp hs
    obtain ⟨ht, hcomplete', hlhs', _⟩ := mem_finalStates.mp ht
    rcases h.final_cases hG hs hcomplete hlhs with ⟨hn, rfl⟩ | ⟨hn, _, q, hq, rfl⟩
    · rcases h.final_cases hG ht hcomplete' hlhs' with ⟨_, rfl⟩ | ⟨hn', _⟩
      · rfl
      · omega
    · rcases h.final_cases hG ht hcomplete' hlhs' with ⟨hn', _⟩ | ⟨_, _, q', hq', rfl⟩
      · omega
      · rw [hq] at hq'
        cases hq'
        rfl
  -- and a column holds no state twice
  have hstates : (chart.column n).states.Pairwise fun a b => ¬ (a == b) = true :=
    List.pairwise_map.mpr (h.shaped n).distinct
  have hdistinct : (finalStates chart n).Pairwise fun a b => ¬ (a == b) = true :=
    (hstates.filter _).filter _
  cases hfinals : finalStates chart n with
  | nil => exact Or.inl rfl
  | cons s rest =>
    cases rest with
    | nil => exact Or.inr ⟨s, rfl⟩
    | cons t rest =>
      rw [hfinals] at hunique hdistinct
      have hst := hunique s List.mem_cons_self t (List.mem_cons_of_mem _ List.mem_cons_self)
      have hne := (List.pairwise_cons.mp hdistinct).1 t List.mem_cons_self
      rw [hst] at hne
      exact absurd BEq.rfl hne

/-! ## What may come next -/

/-- A symbol that is called for is waited for. -/
theorem Saturated.exists_waiting (hG : G.Compiled solver) (h : Saturated G goal tokens columns)
    {x : Category} (hx : x ≠ .start) (hr : Reaches G goal .start tokens x) :
    ∃ s ∈ statesAt columns tokens.length, s.next? = some x := by
  rcases hr.cases_last with ⟨rfl, _⟩ | ⟨y, left, right, us, vs, hy, hrw, hleft, rfl⟩
  · exact absurd rfl hx
  · have hcalled := h.isCalled_of_reaches hG hy rfl (Or.inl ⟨rfl, rfl⟩)
    rw [Nat.zero_add] at hcalled
    obtain ⟨s, hs, hdot, hrhs⟩ := h.exists_of_isCalled hG hcalled hrw
    have hmore : (us ++ vs).drop us.length = vs ++ [] := by rw [List.drop_left, List.append_nil]
    have hfound := h.found_of_yields hG hleft hs (by rw [hdot, List.drop_zero, hrhs]) hmore
    rw [List.length_append]
    refine ⟨_, hfound, ?_⟩
    rw [State.next?, State.found, hdot, Nat.zero_add]
    dsimp only
    rw [hrhs, List.getElem?_append_right (Nat.le_refl _), Nat.sub_self]
    rfl

omit [DecidableEq P] [DecidableEq W] [Probability P] in
/-- Collecting categories one by one lists each of them once, and no other. -/
theorem foldl_addNew (cs known : List Category)
    (hknown : known.Pairwise fun a b => ¬ (a == b) = true) :
    (cs.foldl addNew known).Pairwise (fun a b => ¬ (a == b) = true) ∧
      ∀ x, (cs.foldl addNew known).contains x = true
        ↔ known.contains x = true ∨ ∃ c ∈ cs, (x == c) = true := by
  induction cs generalizing known with
  | nil => exact ⟨hknown, fun x => by simp⟩
  | cons c cs ih =>
    rw [List.foldl_cons, addNew]
    by_cases hc : known.contains c = true
    · rw [if_pos hc]
      obtain ⟨hpair, hmem⟩ := ih known hknown
      refine ⟨hpair, fun x => (hmem x).trans ?_⟩
      simp only [List.mem_cons, exists_eq_or_imp]
      refine ⟨fun h => h.imp id Or.inr,
        fun h => h.elim Or.inl fun h => h.elim (fun hxc => ?_) Or.inr⟩
      left
      obtain ⟨d, hd, hcd⟩ := List.contains_iff_exists_mem_beq.mp hc
      exact List.contains_iff_exists_mem_beq.mpr ⟨d, hd, BEq.trans hxc hcd⟩
    · rw [if_neg hc]
      have hnew : (known ++ [c]).Pairwise fun a b => ¬ (a == b) = true := by
        refine List.pairwise_append.mpr ⟨hknown, List.pairwise_singleton _ _,
          fun a ha b hb hab => ?_⟩
        rw [List.mem_singleton.mp hb] at hab
        exact hc (List.contains_iff_exists_mem_beq.mpr ⟨a, ha, BEq.symm hab⟩)
      obtain ⟨hpair, hmem⟩ := ih _ hnew
      refine ⟨hpair, fun x => (hmem x).trans ?_⟩
      simp only [List.contains_iff_exists_mem_beq, List.mem_append, List.mem_cons, List.not_mem_nil,
        or_false, or_and_right, exists_or, exists_eq_left, or_assoc]

omit [DecidableEq P] [DecidableEq W] [Probability P] in
theorem contains_allowedTerminals {p : Parser P W} {x : Category} :
    p.allowedTerminals.contains x = true ↔ ∃ y, (x == y) = true ∧ p.grammar.isTerminal y = true ∧
      ∃ s ∈ statesAt p.chart.columns p.position, s.next? = some y := by
  unfold allowedTerminals
  rw [(foldl_addNew _ [] List.Pairwise.nil).2]
  constructor
  · rintro (hnil | ⟨y, hy, hxy⟩)
    · cases hnil
    · obtain ⟨hy, hterm⟩ := List.mem_filter.mp hy
      obtain ⟨c, hc, hnext⟩ := List.mem_filterMap.mp hy
      exact ⟨y, hxy, hterm, c.state, mem_states.mpr ⟨c, hc, rfl⟩, hnext⟩
  · rintro ⟨y, hxy, hterm, s, hs, hnext⟩
    obtain ⟨c, hc, rfl⟩ := mem_states.mp hs
    exact Or.inr ⟨y, List.mem_filter.mpr ⟨List.mem_filterMap.mpr ⟨c, hc, hnext⟩, hterm⟩, hxy⟩

/-! ## The items of a chart -/

omit [DecidableEq P] [DecidableEq W] [Probability P] in
theorem isItem_iff {k : Nat} {s : State P W} :
    IsItem G goal tokens k s ↔
      G.DerivesTokens goal (s.rule.rhs.take s.dot) (span tokens s.origin k) ∧
        G.DerivesNext goal (tokens.take s.origin) s.rule.lhs := by
  rw [← Grammar.yields_iff, ← Grammar.reaches_iff]
  exact ⟨fun h => ⟨h.found, h.called⟩, fun h => ⟨h.1, h.2⟩⟩

/-- A state is in the chart if and only if it is an item. -/
theorem Saturated.mem_iff (hG : G.Compiled solver) (h : Saturated G goal tokens columns) {k : Nat}
    (hk : k ≤ tokens.length) {s : State P W}
    (hrule : s.rule = startRule G.algebra goal ∨ G.Uses s.rule)
    (hpos : s.position = k) (horigin : s.origin ≤ k) (hdot : s.dot ≤ s.rule.rhs.length) :
    s ∈ statesAt columns k ↔
      G.DerivesTokens goal (s.rule.rhs.take s.dot) (span tokens s.origin k) ∧
        (s.rule.lhs = .start ∧ s.origin = 0 ∨
          G.DerivesNext goal (tokens.take s.origin) s.rule.lhs) := by
  constructor
  · intro hs
    obtain ⟨hfound, hcalled⟩ := isItem_iff.mp (h.sound hG hs)
    exact ⟨hfound, Or.inr hcalled⟩
  · rintro ⟨hfound, hcalled⟩
    have hcompiled : s.rule = startRule G.algebra goal ∨ s.rule ∈ G.compiledRules := by
      refine hrule.imp id ?_
      rintro ⟨x, q, hq, hqr⟩
      rw [← hqr]
      exact (hG.compiled_of_mem_productionsOf hq).1
    refine h.holds hG hk hcompiled hpos horigin hdot (isItem_iff.mpr ⟨hfound, ?_⟩)
    rcases hcalled with ⟨hlhs, hzero⟩ | hcalled
    · rw [hlhs, hzero]
      exact ⟨[], [], .refl, .nil⟩
    · exact hcalled

/-- **A chart holds exactly the items of its tokens.** At every position, a state on the start rule
or on a rule that the parser uses is there if and only if the symbols before its dot derive the
tokens of its span and the start symbol derives the tokens before it, followed by the category of
its rule. Beside these there is at most one state, the empty start at the beginning, and it is there
if and only if the category to be parsed can be empty. A parser that was fed the tokens accepts them
if and only if they are derived, and it lists, each once, the terminals that may come next. -/
theorem chart_holds_exactly_the_items [PositiveSums P] {A : ScoreAlgebra P W}
    (hG : G.Built solver A) {chart : Chart P W} (hparse : parse G goal tokens = .ok chart) :
    (∀ k ≤ tokens.length, ∀ s : State P W,
      s.position = k → s.origin ≤ k → s.dot ≤ s.rule.rhs.length →
      (s.rule = startRule A goal ∨ G.Uses s.rule) →
      (s ∈ (chart.column k).states ↔
        G.DerivesTokens goal (s.rule.rhs.take s.dot) (span tokens s.origin k) ∧
          (s.rule.lhs = .start ∧ s.origin = 0 ∨
            G.DerivesNext goal (tokens.take s.origin) s.rule.lhs))) ∧
    (∀ k, ∀ s ∈ (chart.column k).states,
      s.position = k ∧ s.origin ≤ k ∧ s.dot ≤ s.rule.rhs.length ∧
        ((s.rule = startRule A goal ∨ G.Uses s.rule) ∨ k = 0 ∧ IsEmptyStart s)) ∧
    ((∃ s ∈ (chart.column 0).states, IsEmptyStart s) ↔ G.isNullable goal = true) ∧
    (∀ s ∈ (chart.column 0).states, ∀ s' ∈ (chart.column 0).states,
      IsEmptyStart s → IsEmptyStart s' → s = s') ∧
    ∀ p, Fed G goal tokens p →
      (p.isAccepted = true ↔
        G.DerivesTokens goal [goal] tokens ∨ tokens = [] ∧ G.isNullable goal = true) ∧
      (∀ x, p.allowedTerminals.contains x = true ↔ ∃ y, (x == y) = true ∧ G.isTerminal y = true ∧
        G.DerivesNext goal tokens y) ∧
      p.allowedTerminals.Pairwise fun x y => ¬ (x == y) = true := by
  obtain ⟨hC, rfl⟩ := hG.compiled
  have hsat := (parse_eq_ok hparse).saturated hC
  refine ⟨fun k hk s hpos horigin hdot hrule => hsat.mem_iff hC hk hrule hpos horigin hdot,
    fun k s hs => ?_, ⟨?_, fun hnull => ?_⟩, fun s hs s' hs' hempty hempty' => ?_, fun p hp => ?_⟩
  · have hfits := hsat.fits hs
    refine ⟨hfits.position, hfits.origin_le, hfits.dot_le, (hsat.rule_cases hs).imp id ?_⟩
    rintro ⟨hk, _, q, hq, rfl⟩
    exact ⟨hk, isEmptyStart_of_emptyStart hq⟩
  · rintro ⟨s, hs, hempty⟩
    exact (hsat.eq_of_isEmptyStart hC hs hempty).1
  · obtain ⟨q, hq, hmem⟩ := hsat.empty hnull
    exact ⟨_, hmem, isEmptyStart_of_emptyStart hq⟩
  · obtain ⟨_, q, hq, rfl⟩ := hsat.eq_of_isEmptyStart hC hs hempty
    obtain ⟨_, q', hq', rfl⟩ := hsat.eq_of_isEmptyStart hC hs' hempty'
    rw [hq] at hq'
    cases hq'
    rfl
  · have hholds := hp.holds
    have hfed := hholds.run.saturated hC
    refine ⟨?_, fun x => ?_, (foldl_addNew _ [] List.Pairwise.nil).1⟩
    · rw [isAccepted_iff, hholds.position, hfed.exists_final_iff hC, Grammar.yields_iff]
    · rw [contains_allowedTerminals, hholds.grammar, hholds.position]
      refine exists_congr fun y => and_congr_right fun _ => and_congr_right fun hterm => ?_
      rw [← Grammar.reaches_iff]
      constructor
      · rintro ⟨s, hs, hnext⟩
        have hreaches := (hfed.sound hC hs).reaches_next hC (hfed.fits hs) hnext
        rwa [List.take_length] at hreaches
      · refine hfed.exists_waiting hC ?_
        rintro rfl
        simp [Grammar.isTerminal, Category.isTerminalObject] at hterm

/-- The complete start rule of the small grammar over one token. -/
def smallFinal : State ℚ ℚ :=
  ⟨0, 1, 1, startRule (linearScores ℚ) (.name "S")⟩

set_option maxRecDepth 100000 in
/-- In the small grammar one token is derived, over the unit rule and the empty category, because
the chart says so. -/
theorem small_chart_holds_its_items :
    ∃ G chart, smallGrammar = .ok G ∧ parse G (.name "S") [.text "a"] = .ok chart ∧
      smallFinal ∈ (chart.column 1).states ∧
      G.DerivesTokens (.name "S") [.name "S"] [.text "a"] := by
  obtain ⟨G, chart, hG, hchart, hcheck⟩ := exists_smallChart [.text "a"]
    (fun _ chart => (chart.column 1).states.any fun s => decide (s = smallFinal))
    (by decide +kernel)
  have hmem : smallFinal ∈ (chart.column 1).states := by simpa using hcheck
  obtain ⟨hitems, _⟩ := chart_holds_exactly_the_items (built_smallGrammar hG) hchart
  exact ⟨G, chart, hG, hchart, hmem,
    ((hitems 1 (Nat.le_refl 1) smallFinal rfl (Nat.zero_le 1) (Nat.le_refl 1) (.inl rfl)).mp
      hmem).1⟩

end StochasticGrammar.Parser
