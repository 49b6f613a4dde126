import Mathlib
import StochasticGrammar.Proofs.Recognition
import StochasticGrammar.Proofs.Series
import StochasticGrammar.Proofs.Steps

/-!
# Exact linear algebra, and a grammar over the real numbers

The real numbers have exact linear algebra, although nothing computes with it. A small grammar
without empty rules is built over them, with a unit rule that leads back to its own category, so
that a phrase has infinitely many derivations.

> `isExact_realSolver`: there is a solver that never rounds.

> `exists_loopGrammar`, `exists_fed_loopGrammar`: the grammar can be built, and a parser for it
> takes a token.
-/

namespace StochasticGrammar

/-! ## A solver -/

section Solver

open scoped Matrix.Norms.Operator in
/-- There is an eigenvalue of greatest magnitude. -/
theorem exists_radius {n : Nat} (hn : 0 < n) (M : Matrix (Fin n) (Fin n) ℂ) :
    ∃ r, IsGreatest (Set.image (‖·‖) (spectrum ℂ M)) r := by
  have : Nonempty (Fin n) := ⟨⟨0, hn⟩⟩
  have hcompact : IsCompact (Set.image (‖·‖) (spectrum ℂ M)) :=
    (spectrum.isCompact M).image continuous_norm
  exact hcompact.exists_isGreatest ((spectrum.nonempty M).image _)

open scoped Classical in
/-- Linear algebra over the real numbers. -/
noncomputable def realSolver : Solver ℝ where
  inverse m := .ofFn fun i j => (m.toMatrix⁻¹) i j
  radius {n} m :=
    if hn : 0 < n then (exists_radius hn (m.toMatrix.map Complex.ofReal)).choose else 0

/-- **Linear algebra over the real numbers is exact.** -/
theorem isExact_realSolver : realSolver.IsExact where
  inverse m _ := by
    ext i j
    exact Square.entry_ofFn _ i j
  radius {n} m hn := by
    show IsGreatest _ (if hn : 0 < n then _ else 0)
    rw [dif_pos hn]
    exact (exists_radius hn _).choose_spec

/-- The radius of a matrix with one entry. -/
theorem Solver.IsExact.radius_single {solver : Solver ℝ} (h : solver.IsExact) (m : Square 1 ℝ) :
    solver.radius m = |m.entry 0 0| := by
  have hscalar : m.toMatrix.map Complex.ofReal
      = algebraMap ℂ (Matrix (Fin 1) (Fin 1) ℂ) (m.entry 0 0 : ℂ) := by
    ext i j
    rw [Subsingleton.elim i 0, Subsingleton.elim j 0, Matrix.algebraMap_matrix_apply, if_pos rfl]
    rfl
  obtain ⟨⟨z, hz, hradius⟩, _⟩ := h.radius m Nat.one_pos
  rw [hscalar, spectrum.scalar_eq, Set.mem_singleton_iff] at hz
  rw [← hradius, hz]
  exact Complex.norm_real _

/-- A closure over one name is formed if its edges sum up to less than one by a margin. -/
theorem Star.exists_closure_single {α : Type} [BEq α] [ReflBEq α] {solver : Solver ℝ}
    (hsolver : solver.IsExact) (x : α) {p : ℝ} (hp : |p| < 1 / 2) :
    ∃ table, Star.closure solver [x] [(x, x, p)] = .ok table := by
  have hindex : lastIndex? [x] x = some 0 := by
    simp only [lastIndex?, List.get_eq_getElem, List.length_singleton, Fin.val_eq_zero,
      List.getElem_cons_zero, BEq.rfl]
    rfl
  have hplaces : [(x, x, p)].mapM (resolve [x]) = .ok [(0, 0, p)] := by
    simp only [List.mapM_cons, List.mapM_nil, resolve, hindex]
    rfl
  have hentry : (weights [((0 : Fin 1), (0 : Fin 1), p)]).entry 0 0 = p := by
    rw [weights, Square.entry_ofFn]
    simp [Probability.sum]
  have hradius : ¬ 1 - 1e-12 ≤ radiusOf solver (weights [((0 : Fin 1), (0 : Fin 1), p)]) := by
    unfold radiusOf
    split
    · norm_num
    · rw [hsolver.radius_single, hentry]
      norm_num
      linarith
  exact ⟨_, (closure_eq_ite (List.cons_ne_nil _ _) hplaces).trans (if_neg hradius)⟩

end Solver

/-! ## A grammar with a loop -/

section Loop

/-- A unit rule that leads back, a token, and a token with more behind it. -/
noncomputable def loopBuilder : Except (GrammarError ℝ) (Builder ℝ ℝ) := do
  let b := Builder.empty (linearScores ℝ) false
  let b ← b.add ⟨.plain, .name "S", [.name "S"]⟩ (1 / 4)
  let b ← b.add ⟨.plain, .name "S", [.name "a"]⟩ (1 / 2)
  b.add ⟨.plain, .name "S", [.name "a", .name "S"]⟩ (1 / 4)

/-- The grammar of these rules. -/
noncomputable def loopGrammar : Except (GrammarError ℝ) (Grammar ℝ ℝ) := do
  (← loopBuilder).build realSolver

/-- A rule for the only category. -/
noncomputable def loopRule (rhs : List Category) (p : ℝ) : Rule ℝ ℝ :=
  .given ⟨⟨.plain, .name "S", rhs⟩, p, p, [], 0⟩

/-- The rules of the grammar. -/
noncomputable def loopRules : List (Rule ℝ ℝ) :=
  [loopRule [.name "S"] (1 / 4), loopRule [.name "a"] (1 / 2),
    loopRule [.name "a", .name "S"] (1 / 4)]

theorem isProper_of_mem_unit {p : ℝ} (h : 0 < p ∧ p ≤ 1) : Probability.IsProper p :=
  ⟨rfl, h⟩

/-- Entries with proper probabilities make rules. -/
theorem mapM_create {W : Type} (A : ScoreAlgebra ℝ W) {entries : List (RuleEntry ℝ)}
    (h : ∀ e ∈ entries, 0 < e.probability ∧ e.probability ≤ 1) :
    entries.mapM (fun e => (Rule.create A e.head e.probability).mapError GrammarError.improperRule)
      = .ok (entries.map fun e =>
        .given ⟨e.head, e.probability, A.ofProbability e.probability, [], 0⟩) := by
  rw [mapM_eq_ok_iff, List.forall₂_map_right_iff, List.forall₂_same]
  intro e he
  rw [mapError_eq_ok]
  exact Grammar.create_of_isProper A e.head (isProper_of_mem_unit (h e he))

/-- If nothing can be empty, the first round already settles. -/
theorem Empty.masses_nil {W : Type} (index : RuleIndex ℝ W) : Empty.masses index [] = .ok [] := by
  have hzero : zeroMasses index [] = [] := by
    simp [zeroMasses]
  have hsettle : settleMasses (massRound index []) maxRounds [] = some ([] : Masses ℝ) := by
    unfold maxRounds settleMasses
    refine if_pos ?_
    show (0 : ℝ) ≤ 1e-12
    norm_num
  unfold masses
  rw [hzero, hsettle]
  rfl

/-- If a round gives the only category that can be empty the same mass whatever it had, the second
round settles. -/
theorem Empty.masses_of_constant {W : Type} {index : RuleIndex ℝ W} {nullable : List Category}
    {x : Category} {p : ℝ} (hzero : zeroMasses index nullable = [(x, 0)])
    (hround : ∀ q, massRound index nullable [(x, q)] = [(x, p)]) (hp : 1e-12 < p ∧ p ≤ 1) :
    masses index nullable = .ok [(x, p)] := by
  have hchange : ∀ a : ℝ, change [(x, a)] [(x, p)] = |p - a| := Probability.dist_eq p
  have hfirst : ¬ change [(x, (0 : ℝ))] [(x, p)] ≤ 1e-12 := by
    rw [hchange, sub_zero]
    exact not_le.mpr (hp.1.trans_le (le_abs_self p))
  have hsecond : change [(x, p)] [(x, p)] ≤ 1e-12 := by
    rw [hchange, sub_self, abs_zero]
    norm_num
  have hsettle : settleMasses (massRound index nullable) maxRounds [(x, 0)] = some [(x, p)] := by
    unfold maxRounds settleMasses settleMasses
    simp only [hround]
    rw [if_neg hfirst, if_pos hsecond]
  have hsmall : ¬ 1 + 1e-9 < p := not_lt.mpr (hp.2.trans (by norm_num))
  unfold masses
  rw [hzero, hsettle]
  simp only [List.find?_singleton, decide_eq_true_eq, if_neg hsmall]

theorem built_loopGrammar {G : Grammar ℝ ℝ} (h : loopGrammar = .ok G) :
    G.Built realSolver (linearScores ℝ) := by
  obtain ⟨b, hb, hG⟩ := bind_eq_ok.mp h
  obtain ⟨b₁, h₁, hb⟩ := bind_eq_ok.mp hb
  obtain ⟨b₂, h₂, hb⟩ := bind_eq_ok.mp hb
  exact ⟨b, .add (.add (.add (.empty false) h₁) h₂) hb, hG⟩

theorem loopBuilder_eq : loopBuilder = .ok ⟨linearScores ℝ, false,
    [⟨⟨.plain, .name "S", [.name "S"]⟩, 1 / 4⟩, ⟨⟨.plain, .name "S", [.name "a"]⟩, 1 / 2⟩,
      ⟨⟨.plain, .name "S", [.name "a", .name "S"]⟩, 1 / 4⟩]⟩ := by
  have hadd : ∀ (b : Builder ℝ ℝ) (rhs : List Category) (p : ℝ), 0 < p ∧ p ≤ 1 → .start ∉ rhs →
      b.add ⟨.plain, .name "S", rhs⟩ p
        = .ok { b with entries := Builder.addEntry b.entries ⟨⟨.plain, .name "S", rhs⟩, p⟩ } := by
    intro b rhs p hp hrhs
    exact Builder.add_eq_ok_iff.mpr ⟨⟨isProper_of_mem_unit hp, rfl, by simp, hrhs⟩, rfl⟩
  exact bind_eq_ok.mpr ⟨_, hadd _ _ _ (by norm_num) (by simp), bind_eq_ok.mpr ⟨_,
    hadd _ _ _ (by norm_num) (by simp), hadd _ _ _ (by norm_num) (by simp)⟩⟩

/-- **The grammar can be built.** -/
theorem exists_loopGrammar : ∃ G, loopGrammar = .ok G ∧ G.rules = loopRules := by
  have hrules : [(⟨⟨.plain, .name "S", [.name "S"]⟩, 1 / 4⟩ : RuleEntry ℝ),
      ⟨⟨.plain, .name "S", [.name "a"]⟩, 1 / 2⟩,
      ⟨⟨.plain, .name "S", [.name "a", .name "S"]⟩, 1 / 4⟩].mapM (fun e =>
        (Rule.create (linearScores ℝ) e.head e.probability).mapError GrammarError.improperRule)
      = .ok loopRules := by
    refine mapM_create (linearScores ℝ) ?_
    simp only [List.forall_mem_cons]
    norm_num
  have hmerge : Grammar.merge (linearScores ℝ) loopRules = .ok loopRules := by
    refine Grammar.merge_of_distinct _ ?_
    simp only [loopRules, List.pairwise_cons]
    decide
  -- the unit rule is also the only rule that begins with a name, so that both tables are the same
  have hchains : ∃ table, Star.closure realSolver [.name "S"]
      [((.name "S" : Category), (.name "S" : Category), (1 / 4 : ℝ))] = .ok table :=
    Star.exists_closure_single isExact_realSolver _ (by norm_num [abs_of_pos])
  obtain ⟨table, htable⟩ := hchains
  have hflat : Omission.eliminate (linearScores ℝ) [] (Empty.massAt [])
      (Empty.bestAt (Empty.choices (RuleIndex.ofRules loopRules))) loopRules
        = .ok (loopRules.map .ofRule) := rfl
  refine ⟨⟨linearScores ℝ, loopRules, RuleIndex.ofRules loopRules, [], [],
    Empty.choices (RuleIndex.ofRules loopRules), [(.name "S", loopRules.map .ofRule)],
    Grammar.encode (linearScores ℝ) table, Grammar.encode (linearScores ℝ) table⟩, ?_, rfl⟩
  refine bind_eq_ok.mpr ⟨_, loopBuilder_eq, bind_eq_ok.mpr ⟨_, hrules, ?_⟩⟩
  unfold Grammar.ofRules
  refine bind_eq_ok.mpr ⟨_, mapError_eq_ok.mpr hmerge,
    bind_eq_ok.mpr ⟨_, mapError_eq_ok.mpr (Empty.masses_nil _),
    bind_eq_ok.mpr ⟨_, mapError_eq_ok.mpr hflat, bind_eq_ok.mpr ⟨_, mapError_eq_ok.mpr htable,
      bind_eq_ok.mpr ⟨_, mapError_eq_ok.mpr htable, rfl⟩⟩⟩⟩⟩

/-- What the grammar says, in the order in which it is added. -/
noncomputable def loopHeads : List (RuleHead × ℝ) :=
  [(⟨.plain, .name "S", [.name "S"]⟩, 1 / 4), (⟨.plain, .name "S", [.name "a"]⟩, 1 / 2),
    (⟨.plain, .name "S", [.name "a", .name "S"]⟩, 1 / 4)]

theorem compile_loopHeads :
    Builder.compile realSolver (linearScores ℝ) false loopHeads = loopGrammar := by
  have hadded : (Builder.empty (linearScores ℝ) false).addRules loopHeads = loopBuilder := by
    simp [Builder.addRules, loopHeads, loopBuilder]
  rw [Builder.compile, hadded, loopGrammar]

/-- Every rule of the grammar expands its only category, by names. -/
theorem of_mem_loopRules {r : Rule ℝ ℝ} (hr : r ∈ loopRules) :
    r.lhs = .name "S" ∧ r.rhs ≠ [] ∧ ∀ c ∈ r.rhs, ∃ x, c = .name x := by
  simp only [loopRules, List.mem_cons, List.not_mem_nil, or_false] at hr
  rcases hr with rfl | rfl | rfl <;> refine ⟨rfl, List.cons_ne_nil _ _, fun c hc => ?_⟩
  · exact ⟨"S", List.mem_singleton.mp hc⟩
  · exact ⟨"a", List.mem_singleton.mp hc⟩
  · rcases List.mem_cons.mp hc with rfl | hc
    · exact ⟨"a", rfl⟩
    · exact ⟨"S", List.mem_singleton.mp hc⟩

end Loop

/-! ## Taking a token -/

namespace Parser

variable {P W : Type} [DecidableEq P] [DecidableEq W] [Probability P] [PositiveSums P]
  {solver : Solver P} {G : Grammar P W} {goal : Category}

/-- A parser takes a token that one of its states takes, if nothing that another state waits for is
a faulty pattern. -/
theorem Fed.exists_step (hG : G.Compiled solver) {tokens : List Payload} {p : Parser P W}
    (h : Fed G goal tokens p) {token : Payload} {s : State P W}
    (hs : s ∈ statesAt p.chart.columns tokens.length) (htakes : Takes G token s)
    (hsound : ∀ t ∈ statesAt p.chart.columns tokens.length, ∀ c, t.next? = some c →
      ∃ b, c.accepts token = .ok b) :
    ∃ p', Fed G goal (tokens ++ [token]) p' := by
  have hholds := h.holds
  rcases hholds.step token with ⟨p', hstep, _⟩ | ⟨p', _, _, column, hscan⟩ | ⟨p', e, hstep⟩
  · exact ⟨p', .step h hstep⟩
  · exact absurd htakes (hholds.run.not_takes_of_scan hG hscan hs)
  · obtain ⟨column, hmeets, _⟩ := eq_write_of_step hstep
    unfold meets at hmeets
    rw [hholds.position] at hmeets
    obtain ⟨before, cell, after, c, scanned, hprev, hnext, _, haccepts, _⟩ := scan_eq_error hmeets
    have hmem : cell.state ∈ statesAt p.chart.columns tokens.length := by
      refine mem_states.mpr ⟨cell, ?_, rfl⟩
      show cell ∈ p.chart.column tokens.length
      rw [hprev]
      exact List.mem_append_right _ List.mem_cons_self
    obtain ⟨b, hb⟩ := hsound _ hmem c hnext
    rw [haccepts] at hb
    cases hb

omit [PositiveSums P] in
/-- In a grammar of names, no state waits for anything but a name. -/
theorem Saturated.exists_name (hG : G.Compiled solver) {x : String} {tokens : List Payload}
    {columns : List (Column P W)} (h : Saturated G (.name x) tokens columns)
    (hnames : ∀ r ∈ G.rules, ∀ c ∈ r.rhs, ∃ y, c = .name y) {k : Nat} {s : State P W}
    (hs : s ∈ statesAt columns k) {c : Category} (hc : s.next? = some c) : ∃ y, c = .name y := by
  have hmem : c ∈ s.rule.rhs := List.mem_of_getElem? hc
  have hchart := (h.fits hs).rule
  generalize s.rule = r at hmem hchart
  cases hchart with
  | start => exact ⟨x, List.mem_singleton.mp hmem⟩
  | @empty q _ hq =>
    have hnil : q.rule.rhs = [] := (isEmptyStart_of_emptyStart hq).rhs
    rw [hnil] at hmem
    cases hmem
  | used hq =>
    obtain ⟨_, r, hexp⟩ := hG.mem_productionsOf.mp hq
    exact hnames r hexp.mem c (hexp.mem_rhs hmem)

/-- Names are no patterns, so that a parser for a grammar of names takes every token that one of its
states takes. -/
theorem Fed.exists_step_of_names (hG : G.Compiled solver) {x : String} {tokens : List Payload}
    {p : Parser P W} (h : Fed G (.name x) tokens p)
    (hnames : ∀ r ∈ G.rules, ∀ c ∈ r.rhs, ∃ y, c = .name y) {token : Payload} {s : State P W}
    (hs : s ∈ statesAt p.chart.columns tokens.length) (htakes : Takes G token s) :
    ∃ p', Fed G (.name x) (tokens ++ [token]) p' := by
  refine h.exists_step hG hs htakes fun t ht c hc => ?_
  obtain ⟨y, rfl⟩ := (h.holds.run.saturated hG).exists_name hG hnames ht hc
  exact ⟨_, rfl⟩

/-- A parser for a grammar of names takes a first token that one of the goal's rules begins with,
if the goal is not empty. -/
theorem exists_fed_of_names {W : Type} [DecidableEq W] {solver : Solver ℝ} {G : Grammar ℝ W}
    (hG : G.Compiled solver) {x : String} (hnonempty : G.isNullable (.name x) = false)
    (hnames : ∀ r ∈ G.rules, ∀ c ∈ r.rhs, ∃ y, c = .name y) {r : Rule ℝ W}
    (hr : .ofRule r ∈ G.productionsOf (.name x)) {token : Payload}
    (htakes : Takes G token (.predicted r 0)) : ∃ p, Fed G (.name x) [token] p := by
  obtain ⟨p, hp⟩ : ∃ p, create G (.name x) = .ok p := exists_create (by simp) fun hnull =>
    absurd (hnull.symm.trans hnonempty) (by simp)
  have hfed : Fed G (.name x) [] p := .create hp
  have hsat := hfed.holds.run.saturated hG
  exact hfed.exists_step_of_names hG hnames (hsat.predict hsat.seed rfl hr) htakes

section Loop

variable {G : Grammar ℝ ℝ}

theorem ofRule_mem_of_loopRules {solver : Solver ℝ} (hG : G.Compiled solver)
    (hrules : G.rules = loopRules) {r : Rule ℝ ℝ} (hr : r ∈ loopRules) :
    Production.ofRule r ∈ G.productionsOf (.name "S") := by
  obtain ⟨hlhs, hrhs, _⟩ := of_mem_loopRules hr
  exact hG.mem_productionsOf.mpr ⟨hlhs, r, hrules ▸ hr, hrhs, .whole⟩

theorem isTerminal_of_loopRules {solver : Solver ℝ} (hG : G.Compiled solver)
    (hrules : G.rules = loopRules) : G.isTerminal (.name "a") = true := by
  refine (Grammar.isTerminal_iff (by simp)).mpr fun hnt => ?_
  obtain ⟨r, hr, hlhs⟩ := hG.mem_names.mp (hG.isNonterminal_iff.mp hnt)
  rw [(of_mem_loopRules (hrules ▸ hr)).1] at hlhs
  exact absurd hlhs (by decide)

/-- **A parser for the grammar takes a token**, and accepts it. -/
theorem exists_fed_loopGrammar (h : loopGrammar = .ok G) (hrules : G.rules = loopRules) :
    ∃ p, Fed G (.name "S") [.text "a"] p ∧ p.isAccepted = true := by
  obtain ⟨hG, _⟩ := (built_loopGrammar h).compiled
  have hnonempty : G.isNullable (.name "S") = false := by
    unfold Grammar.isNullable
    rw [hG.nullable, hG.index, hrules]
    rfl
  have hrule := ofRule_mem_of_loopRules hG hrules (r := loopRule [.name "a"] (1 / 2))
    (List.mem_cons_of_mem _ List.mem_cons_self)
  have htakes : Takes G (.text "a") (.predicted (loopRule [.name "a"] (1 / 2)) 0) :=
    ⟨.name "a", rfl, isTerminal_of_loopRules hG hrules, rfl⟩
  obtain ⟨p, hp⟩ := exists_fed_of_names hG hnonempty
    (fun r hr => (of_mem_loopRules (hrules ▸ hr)).2.2) hrule htakes
  have hsat := hp.holds.run.saturated hG
  have hdone := hsat.scan (hsat.predict hsat.seed rfl hrule) rfl htakes
  refine ⟨p, hp, isAccepted_iff.mpr ?_⟩
  rw [hp.holds.position]
  exact ⟨_, hsat.complete hdone rfl Nat.zero_lt_one hsat.seed rfl, rfl, rfl, rfl⟩

end Loop

end Parser

end StochasticGrammar
