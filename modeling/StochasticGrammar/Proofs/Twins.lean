import StochasticGrammar.Proofs.Reordered
import StochasticGrammar.Proofs.Safety

/-!
# Parsers side by side

Two parsers over the same rules in another order go on side by side: whether some state takes a
token, and whether some pattern is faulty, does not depend on the order in which states are asked.
Which fault is met first does, so that they may fail with different errors. What they are asked for
on the way is read from charts with the same states and scores.

> `Twins.feed`, `parse_alike`: both parsers fail, or they take the same tokens.

> `Twins.sameAnswers`: and then they give the same answers.
-/

namespace StochasticGrammar

open scoped Classical
open Grammar (Reordered)

/-- Two computations that both fail, or that both give a result. -/
inductive SucceedAlike {ε ε' α β : Type} (R : α → β → Prop) : Except ε α → Except ε' β → Prop
  | error (e : ε) (e' : ε') : SucceedAlike R (.error e) (.error e')
  | ok {a : α} {b : β} (h : R a b) : SucceedAlike R (.ok a) (.ok b)

namespace SucceedAlike

variable {ε ε' α α' β β' : Type} {R : α → β → Prop}

theorem imp {x : Except ε α} {y : Except ε' β} (h : SucceedAlike R x y) {S : α → β → Prop}
    (himp : ∀ a b, x = .ok a → y = .ok b → R a b → S a b) : SucceedAlike S x y := by
  cases h with
  | error e e' => exact .error e e'
  | ok h => exact .ok (himp _ _ rfl rfl h)

theorem exists_of_ok {x : Except ε α} {y : Except ε' β} (h : SucceedAlike R x y) {a : α}
    (hx : x = .ok a) : ∃ b, y = .ok b ∧ R a b := by
  subst hx
  cases h with
  | ok h => exact ⟨_, rfl, h⟩

/-- Results that were mapped are related as the results are in translation. -/
theorem of_map {f : α' → α} {g : β' → β} {x : Except ε α'} {y : Except ε' β'}
    (h : SucceedAlike R (x.map f) (y.map g)) : SucceedAlike (fun a b => R (f a) (g b)) x y := by
  cases x with
  | error e =>
    cases y with
    | error e' => exact .error e e'
    | ok b => cases h
  | ok a =>
    cases y with
    | error e' => cases h
    | ok b =>
      cases h with
      | ok h => exact .ok h

end SucceedAlike

/-! ## Columns with the same states -/

/-- Columns that hold the same states with the same scores. -/
structure Column.SameScores {W : Type} [DecidableEq W] (A : ScoreAlgebra ℝ W)
    (col col' : Column ℝ W) : Prop where
  contains : ∀ s, col'.contains s = col.contains s
  forward : ∀ s, col'.forward A s = col.forward A s
  inner : ∀ s, col'.inner A s = col.inner A s
  best : ∀ s, (col'.best? s).map (·.score) = (col.best? s).map (·.score)

/-- In columns with the same states, a state is looked up alike. -/
theorem Column.find?_cases {W : Type} [DecidableEq W] {col col' : Column ℝ W} (hd : col.Distinct)
    (hd' : col'.Distinct) (hstates : ∀ s, s ∈ col'.states ↔ s ∈ col.states) (s : State ℝ W) :
    (col.find? s = none ∧ col'.find? s = none) ∨ ∃ c ∈ col, ∃ c' ∈ col', c'.state = c.state ∧
      col.find? s = some c ∧ col'.find? s = some c' := by
  have hfind : ∀ {col col' : Column ℝ W}, col'.Distinct → (∀ s, s ∈ col.states → s ∈ col'.states) →
      ∀ c, col.find? s = some c → ∃ c' ∈ col', c'.state = c.state ∧ col'.find? s = some c' := by
    intro col col' hd' hstates c hc
    obtain ⟨hmem, hcs⟩ := Column.mem_of_find? hc
    obtain ⟨c', hc', hstate⟩ := Parser.mem_states.mp
      (hstates c.state (Parser.mem_states.mpr ⟨c, hmem, rfl⟩))
    refine ⟨c', hc', hstate, ?_⟩
    rw [Column.find?_congr col' (BEq.symm hcs), ← hstate, Column.find?_of_mem hd' hc']
  cases hc : col.find? s with
  | some c =>
    obtain ⟨c', hc', hstate, hfind'⟩ := hfind hd' (fun s hs => (hstates s).mpr hs) c hc
    exact .inr ⟨c, (Column.mem_of_find? hc).1, c', hc', hstate, rfl, hfind'⟩
  | none =>
    cases hc' : col'.find? s with
    | none => exact .inl ⟨rfl, rfl⟩
    | some c' =>
      obtain ⟨c, _, _, hfind'⟩ := hfind hd (fun s hs => (hstates s).mp hs) c' hc'
      rw [hc] at hfind'
      cases hfind'

namespace Parser

variable {W : Type} [DecidableEq W] {solver : Solver ℝ} {G G' : Grammar ℝ W} {goal : Category}
  {tokens : List Payload} {p p' : Parser ℝ W}

/-! ## One token -/

/-- A state that waits for a faulty pattern. -/
def Faults (G : Grammar ℝ W) (token : Payload) (s : State ℝ W) : Prop :=
  ∃ c e, s.next? = some c ∧ G.isTerminal c = true ∧ c.accepts token = .error e

omit [DecidableEq W] in
theorem Passes.not_faults {token : Payload} {s : State ℝ W} (h : Passes G token s) :
    ¬ Faults G token s := by
  rintro ⟨c, e, hnext, hterm, haccepts⟩
  rw [h c hnext hterm] at haccepts
  cases haccepts

omit [DecidableEq W] in
theorem Takes.not_faults {token : Payload} {s : State ℝ W} (h : Takes G token s) :
    ¬ Faults G token s := by
  rintro ⟨c, e, hnext, _, haccepts⟩
  rw [h.accepts hnext] at haccepts
  cases haccepts

theorem not_faults_of_scan {k : Nat} {token : Payload} {prev col col' : Column ℝ W}
    {found : List (State ℝ W)} (h : scan G k token prev col = (col', .ok found)) :
    ∀ cell ∈ prev, ¬ Faults G token cell.state := by
  induction prev generalizing col found with
  | nil => exact fun cell hcell => absurd hcell List.not_mem_nil
  | cons first rest ih =>
    rcases scan_cons_eq_ok.mp h with ⟨hpasses, hscan⟩ | ⟨htakes, more, _, hscan⟩
    · exact List.forall_mem_cons.mpr ⟨hpasses.not_faults, ih hscan⟩
    · exact List.forall_mem_cons.mpr ⟨htakes.not_faults, ih hscan⟩

/-- A scan to the end meets no faulty pattern, and finds something if some state takes the token. -/
theorem takes_of_scan {k : Nat} {token : Payload} {prev col : Column ℝ W} {found : List (State ℝ W)}
    (hprev : Shaped G goal k prev) (h : scan G (k + 1) token prev [] = (col, .ok found)) :
    (¬ ∃ s ∈ prev.states, Faults G token s) ∧
      (found ≠ [] ↔ ∃ s ∈ prev.states, Takes G token s) := by
  obtain ⟨hscanned, rfl⟩ := scanned_of_scan hprev h
  refine ⟨?_, ?_⟩
  · rintro ⟨s, hs, hfaults⟩
    obtain ⟨cell, hcell, rfl⟩ := mem_states.mp hs
    exact not_faults_of_scan h cell hcell hfaults
  · rw [Ne, Column.states, List.map_eq_nil_iff]
    constructor
    · intro hne
      obtain ⟨c, hc⟩ := List.exists_mem_of_ne_nil col hne
      obtain ⟨cell, hcell, htakes, _⟩ := (hscanned.mem c).mp hc
      exact ⟨cell.state, mem_states.mpr ⟨cell, hcell, rfl⟩, htakes⟩
    · rintro ⟨s, hs, htakes⟩
      obtain ⟨cell, hcell, rfl⟩ := mem_states.mp hs
      exact List.ne_nil_of_mem ((hscanned.mem _).mpr ⟨cell, hcell, htakes, rfl⟩)

/-- What a parser answers to a token. -/
theorem Holds.answer_cases (hG : G.Compiled solver) (h : Holds G goal tokens p) (token : Payload) :
    ((∃ s ∈ statesAt p.chart.columns tokens.length, Faults G token s) ∧
        ∃ e, (p.step token).2 = .error e) ∨
      (¬ ∃ s ∈ statesAt p.chart.columns tokens.length, Faults G token s) ∧
        ∃ answer, (p.step token).2 = .ok answer ∧
          (answer = true ↔ ∃ s ∈ statesAt p.chart.columns tokens.length, Takes G token s) := by
  have hmeets : p.meets token
      = scan G (tokens.length + 1) token (pastColumn p.chart.columns tokens.length) [] := by
    have hnew : p.chart.column (tokens.length + 1) = [] :=
      pastColumn_of_ge (by rw [h.run.length])
    rw [meets, h.grammar, h.position, hnew]
    rfl
  have hshaped := h.run.pastShaped hG tokens.length
  rcases step_cases p token with ⟨column, e, hscan, hstep⟩ | ⟨column, hscan, hstep⟩ |
    ⟨column, s, scanned, hscan, hstep⟩ <;> rw [hmeets] at hscan
  · obtain ⟨before, cell, after, c, _, hprev, hnext, hterm, haccepts, _⟩ := scan_eq_error hscan
    refine .inl ⟨⟨cell.state, mem_states.mpr ⟨cell, ?_, rfl⟩, c, e, hnext, hterm, haccepts⟩, e, ?_⟩
    · rw [hprev]
      exact List.mem_append_right _ List.mem_cons_self
    · rw [hstep]
  · obtain ⟨hno, htakes⟩ := takes_of_scan hshaped hscan
    refine .inr ⟨hno, false, by rw [hstep], Iff.trans ?_ htakes⟩
    simp
  · obtain ⟨hno, htakes⟩ := takes_of_scan hshaped hscan
    refine .inr ⟨hno, true, by rw [hstep], Iff.trans ?_ htakes⟩
    simp

theorem faults_iff (h : Reordered solver G G') {token : Payload} {s : State ℝ W} :
    Faults G' token s ↔ Faults G token s := by
  unfold Faults
  simp only [h.isTerminal_eq]

/-- **Both parsers give the same answer**, or meet a faulty pattern. -/
theorem Holds.answers_alike (h : Reordered solver G G') (hp : Holds G goal tokens p)
    (hp' : Holds G' goal tokens p') (token : Payload) :
    SucceedAlike (fun a a' => a' = a) (p.step token).2 (p'.step token).2 := by
  have hanswer := hp'.answer_cases h.compiled' token
  simp only [hp.run.mem_statesAt_iff h hp'.run, h.takes_iff, faults_iff h] at hanswer
  rcases hp.answer_cases h.compiled token with ⟨hfaults, e, he⟩ | ⟨hno, answer, ha, htakes⟩ <;>
    rcases hanswer with ⟨hfaults', e', he'⟩ | ⟨hno', answer', ha', htakes'⟩
  · rw [he, he']
    exact .error e e'
  · exact absurd hfaults hno'
  · exact absurd hfaults' hno
  · rw [ha, ha']
    exact .ok (Bool.eq_iff_iff.mpr (htakes'.trans htakes.symm))

/-! ## Side by side -/

/-- Parsers over two grammars that have taken the same tokens and agree with ones that were offered
no others. -/
structure Twins (G G' : Grammar ℝ W) (goal : Category) (tokens : List Payload)
    (p p' : Parser ℝ W) : Prop where
  fed : ∃ q, Fed G goal tokens q ∧ Agree p q
  fed' : ∃ q, Fed G' goal tokens q ∧ Agree p' q

/-- Taking a token, and refusing one, keeps to the tokens that were taken. -/
theorem exists_fed_of_step {q : Parser ℝ W} (h : ∃ q, Fed G goal tokens q ∧ Agree p q)
    {token : Payload} {answer : Bool} (hstep : p.step token = (q, .ok answer)) :
    ∃ q', Fed G goal (if answer then tokens ++ [token] else tokens) q' ∧ Agree q q' := by
  obtain ⟨q₀, hfed, hagree⟩ := h
  obtain ⟨hanswer, hagree'⟩ := hagree.step token
  cases answer with
  | false =>
    refine ⟨q₀, hfed, ?_⟩
    exact (agree_of_refused hstep).trans hagree
  | true =>
    refine ⟨(q₀.step token).1, hfed.step (Prod.ext rfl ?_), ?_⟩
    · rw [← hanswer, hstep]
    · rwa [hstep] at hagree'

theorem Twins.step (h : Reordered solver G G') (htwins : Twins G G' goal tokens p p')
    (token : Payload) :
    (∃ q q' e e', p.step token = (q, .error e) ∧ p'.step token = (q', .error e')) ∨
      ∃ q q' answer, p.step token = (q, .ok answer) ∧ p'.step token = (q', .ok answer) ∧
        Twins G G' goal (if answer then tokens ++ [token] else tokens) q q' := by
  obtain ⟨q₀, hfed, hagree⟩ := htwins.fed
  obtain ⟨q₀', hfed', hagree'⟩ := htwins.fed'
  have halike := hfed.holds.answers_alike h hfed'.holds token
  rw [← (hagree.step token).1, ← (hagree'.step token).1] at halike
  rcases hstep : p.step token with ⟨q, outcome⟩
  rcases hstep' : p'.step token with ⟨q', outcome'⟩
  rw [hstep, hstep'] at halike
  cases halike with
  | error e e' => exact .inl ⟨q, q', e, e', rfl, rfl⟩
  | @ok _ answer heq =>
    subst heq
    exact .inr ⟨q, q', answer, rfl, rfl, exists_fed_of_step htwins.fed hstep,
      exists_fed_of_step htwins.fed' hstep'⟩

/-- **Offered the same tokens, twins take the same ones** and stay twins. -/
theorem Twins.feed (h : Reordered solver G G') (htwins : Twins G G' goal tokens p p')
    (offered : List Payload) :
    SucceedAlike (fun q q' => q'.2 = q.2 ∧ ∃ taken, Twins G G' goal taken q.1 q'.1)
      (p.feed offered) (p'.feed offered) := by
  induction offered generalizing tokens p p' with
  | nil => exact .ok ⟨rfl, tokens, htwins⟩
  | cons token rest ih =>
    rcases htwins.step h token with ⟨q, q', e, e', hstep, hstep'⟩ |
      ⟨q, q', answer, hstep, hstep', hnext⟩
    · rw [Parser.feed, Parser.feed, hstep, hstep']
      exact .error e e'
    · have hrest := ih hnext
      cases answer with
      | false => rwa [feed_cons_of_refused hstep, feed_cons_of_refused hstep']
      | true =>
        rw [Parser.feed, Parser.feed, hstep, hstep']
        dsimp only
        generalize q.feed rest = outcome at hrest ⊢
        generalize q'.feed rest = outcome' at hrest ⊢
        cases hrest with
        | error e e' => exact .error e e'
        | ok hq => exact .ok ⟨congrArg (token :: ·) hq.1, hq.2⟩

/-- Twins run through the same tokens. -/
theorem Twins.run (h : Reordered solver G G') (htwins : Twins G G' goal tokens p p')
    (offered : List Payload) :
    SucceedAlike (fun q q' => ∃ taken, Twins G G' goal taken q q')
      (p.run offered) (p'.run offered) := by
  induction offered generalizing tokens p p' with
  | nil => exact .ok ⟨tokens, htwins⟩
  | cons token rest ih =>
    rw [Parser.run, Parser.run]
    rcases htwins.step h token with ⟨q, q', e, e', hstep, hstep'⟩ |
      ⟨q, q', answer, hstep, hstep', hnext⟩
    · rw [hstep, hstep']
      exact .error e e'
    · rw [hstep, hstep']
      cases answer with
      | false => exact .ok ⟨_, hnext⟩
      | true => exact ih hnext

theorem exists_create_of_reordered (h : Reordered solver G G') (hp : create G goal = .ok p) :
    ∃ p', create G' goal = .ok p' := by
  obtain ⟨hgoal, column, hseeds, _⟩ := create_eq_ok hp
  have hseeds' : seeds G' goal = .ok column := by
    rw [← hseeds]
    unfold seeds
    rw [h.algebra, h.isNullable_eq, h.emptyStart_eq]
  refine ⟨⟨G', goal, ⟨[predict G' 0 column]⟩, 0, G'.algebra.one⟩, ?_⟩
  unfold create
  rw [if_neg hgoal, hseeds']
  rfl

theorem create_alike (h : Reordered solver G G') (goal : Category) :
    SucceedAlike (Twins G G' goal []) (create G goal) (create G' goal) := by
  cases hp : create G goal with
  | error e =>
    cases hp' : create G' goal with
    | error e' => exact .error e e'
    | ok p' =>
      obtain ⟨p, hok⟩ := exists_create_of_reordered h.symm hp'
      rw [hp] at hok
      cases hok
  | ok p =>
    obtain ⟨p', hp'⟩ := exists_create_of_reordered h hp
    rw [hp']
    exact .ok ⟨⟨p, .create hp, .refl p⟩, ⟨p', .create hp', .refl p'⟩⟩

/-! ## What twins have in common -/

/-- Charts with the same states have the same final ones. -/
theorem finalStates_eq (h : Reordered solver G G') {chart chart' : Chart ℝ W}
    (hrun : Run G goal tokens chart.columns) (hrun' : Run G' goal tokens chart'.columns) (n : Nat) :
    finalStates chart' n = finalStates chart n := by
  have hmem : ∀ s, s ∈ finalStates chart' n ↔ s ∈ finalStates chart n := fun s => by
    rw [mem_finalStates, mem_finalStates, hrun.mem_statesAt_iff h hrun']
  rcases (hrun.saturated h.compiled).finalStates_cases h.compiled n with hnil | ⟨s, hs⟩
  · rw [hnil]
    exact List.eq_nil_iff_forall_not_mem.mpr fun s hs => by
      rw [hmem, hnil] at hs
      cases hs
  · rcases (hrun'.saturated h.compiled').finalStates_cases h.compiled' n with hnil | ⟨s', hs'⟩
    · have hin := (hmem s).mpr (by rw [hs]; exact List.mem_singleton_self s)
      rw [hnil] at hin
      cases hin
    · have hin := (hmem s').mp (by rw [hs']; exact List.mem_singleton_self s')
      rw [hs] at hin
      rw [hs, hs', List.mem_singleton.mp hin]

/-- The score of the best parse up to a position. -/
def bestScore? {P W : Type} [DecidableEq P] [DecidableEq W] (chart : Chart P W) (n : Nat) :
    Option W :=
  (finalStates chart n).head?.bind fun s => (chart.best? s).map (·.score)

theorem bestScore?_congr {c d : Chart ℝ W} (h : ∀ k, c.column k = d.column k) (n : Nat) :
    bestScore? c n = bestScore? d n := by
  unfold bestScore? Chart.best?
  simp only [finalStates_congr h, h]

theorem score_of_bestParse {chart : Chart ℝ W} {n : Nat} {best : Option (Tree × W)}
    (h : bestParse G chart n = .ok best) : best.map (·.2) = bestScore? chart n := by
  unfold bestParse at h
  unfold bestScore?
  split at h
  · rename_i hnil
    cases h
    rw [hnil]
    rfl
  · rename_i s hs
    obtain ⟨tree, _, h⟩ := bind_eq_ok.mp h
    rw [hs]
    split at h
    · rename_i b hb
      cases h
      show some b.score = (chart.best? s).map (·.score)
      rw [hb]
      rfl
    · cases h
  · cases h

/-- Parsers that give the same answers about the tokens they have taken. -/
structure SameAnswers (A : ScoreAlgebra ℝ W) (p p' : Parser ℝ W) : Prop where
  position : p'.position = p.position
  column : ∀ k, Column.SameScores A (p.chart.column k) (p'.chart.column k)
  isAccepted : p'.isAccepted = p.isAccepted
  allowedTerminals : ∀ x, p'.allowedTerminals.contains x = p.allowedTerminals.contains x
  prefixProbability : p'.prefixProbability? = p.prefixProbability?
  sentenceProbability : p'.sentenceProbability? = p.sentenceProbability?

section Common

variable {A : ScoreAlgebra ℝ W} {value : W → ℝ} (h : Reordered solver G G') (hA : G.algebra = A)
  (hsolver : solver.IsExact) (hvalue : A.IsAdditive value) (hinjective : Function.Injective value)
include h hA hsolver hvalue

include hinjective in
/-- **Charts of the same tokens hold the same states with the same scores.** -/
theorem Run.sameScores {columns columns' : List (Column ℝ W)} (hrun : Run G goal tokens columns)
    (hrun' : Run G' goal tokens columns') (k : Nat) :
    Column.SameScores A (pastColumn columns k) (pastColumn columns' k) := by
  subst hA
  have hshaped := hrun.pastShaped h.compiled k
  have hshaped' := hrun'.pastShaped h.compiled' k
  have hcases := Column.find?_cases hshaped.distinct hshaped'.distinct
    fun s => hrun.mem_statesAt_iff h hrun' (k := k) (s := s)
  -- a state that is in both columns has the same scores there
  have hcell : ∀ {c c' : Cell ℝ W}, c ∈ pastColumn columns k → c' ∈ pastColumn columns' k →
      c'.state = c.state → c'.forward = c.forward ∧ c'.inner = c.inner ∧
        c'.best.map (·.score) = c.best.map (·.score) := by
    intro c c' hc hc' hstate
    have hmem : c.state ∈ statesAt columns k := mem_states.mpr ⟨c, hc, rfl⟩
    refine ⟨hinjective ?_, hinjective ?_, ?_⟩
    · have heq := hrun.forwardAt_eq h hrun' hsolver hvalue hmem
      unfold forwardAt at heq
      rwa [amount_of_mem hshaped hc, ← hstate, amount_of_mem hshaped' hc'] at heq
    · have heq := hrun.innerAt_eq h hrun' hsolver hvalue hmem
      unfold innerAt at heq
      rwa [amount_of_mem hshaped hc, ← hstate, amount_of_mem hshaped' hc'] at heq
    · obtain ⟨b, b', hb, hb', heq⟩ := hrun.best_eq h hrun' hvalue hmem
      rw [Column.best?_of_mem hshaped.distinct hc] at hb
      rw [← hstate, Column.best?_of_mem hshaped'.distinct hc'] at hb'
      rw [hb, hb', Option.map_some, Option.map_some, hinjective heq]
  refine ⟨fun s => ?_, fun s => ?_, fun s => ?_, fun s => ?_⟩ <;>
    rcases hcases s with ⟨hnone, hnone'⟩ | ⟨c, hc, c', hc', hstate, hfind, hfind'⟩
  · rw [Column.contains, Column.contains, hnone, hnone']
  · rw [Column.contains, Column.contains, hfind, hfind']
    rfl
  · rw [Column.forward, Column.forward, hnone, hnone']
  · rw [Column.forward, Column.forward, hfind, hfind']
    exact (hcell hc hc' hstate).1
  · rw [Column.inner, Column.inner, hnone, hnone']
  · rw [Column.inner, Column.inner, hfind, hfind']
    exact (hcell hc hc' hstate).2.1
  · rw [Column.best?, Column.best?, hnone, hnone']
  · rw [Column.best?, Column.best?, hfind, hfind']
    exact (hcell hc hc' hstate).2.2

/-- Fed the same tokens, parsers have the same score for them as a prefix. -/
theorem Fed.prefixScore_eq {q q' : Parser ℝ W} (hfed : Fed G goal tokens q)
    (hfed' : Fed G' goal tokens q') : value q'.prefixScore = value q.prefixScore := by
  subst hA
  have hvalue' : G'.algebra.IsAdditive value := h.algebra ▸ hvalue
  cases hfed with
  | create hcreate =>
    rw [Fed.prefixScore_of_nil hvalue (.create hcreate), Fed.prefixScore_of_nil hvalue' hfed']
  | @step tokens p q token hp hstep =>
    generalize hconcat : tokens ++ [token] = all at hfed'
    cases hfed' with
    | create => exact absurd hconcat (List.append_ne_nil_of_right_ne_nil _ (List.cons_ne_nil _ _))
    | @step tokens' p' q' token' hp' hstep' =>
      obtain ⟨rfl, htoken⟩ := List.append_inj' hconcat rfl
      cases htoken
      rw [hp.prefixScore_of_step h.compiled hvalue hstep,
        hp'.prefixScore_of_step h.compiled' hvalue' hstep']
      have hmem : ∀ s, s ∈ statesAt p'.chart.columns tokens.length
          ↔ s ∈ statesAt p.chart.columns tokens.length :=
        fun s => hp.holds.run.mem_statesAt_iff h hp'.holds.run
      refine Finset.sum_congr (Finset.ext fun s => ?_) fun s hs => ?_
      · simp only [stateSet, List.mem_toFinset, hmem]
      · rw [stateSet, List.mem_toFinset] at hs
        simp only [h.takes_iff, hp.holds.run.forwardAt_eq h hp'.holds.run hsolver hvalue hs]

variable (hinjective : Function.Injective value) (htwins : Twins G G' goal tokens p p')
include hinjective htwins

/-- **Twins give the same answers.** -/
theorem Twins.sameAnswers : SameAnswers A p p' := by
  obtain ⟨q, hfed, hagree⟩ := htwins.fed
  obtain ⟨q', hfed', hagree'⟩ := htwins.fed'
  have halike := hagree.alike
  have halike' := hagree'.alike
  have hrun := hfed.holds.run
  have hrun' := hfed'.holds.run
  have hcolumn : ∀ k, Column.SameScores A (q.chart.column k) (q'.chart.column k) :=
    fun k => hrun.sameScores h hA hsolver hvalue hinjective hrun' k
  have hposition : q'.position = q.position := hfed'.holds.position.trans hfed.holds.position.symm
  have halgebra : q.grammar.algebra = A := by rw [hfed.holds.grammar, hA]
  have halgebra' : q'.grammar.algebra = A := by rw [hfed'.holds.grammar, h.algebra, hA]
  have hfinal := finalStates_eq h hrun hrun' q.position
  refine ⟨?_, fun k => ?_, ?_, fun x => ?_, ?_, ?_⟩
  · rw [hagree.position, hagree'.position, hposition]
  · rw [hagree.column, hagree'.column]
    exact hcolumn k
  · rw [halike.isAccepted, halike'.isAccepted, Parser.isAccepted, Parser.isAccepted,
      hposition, hfinal]
  · rw [halike.allowedTerminals, halike'.allowedTerminals, Bool.eq_iff_iff,
      contains_allowedTerminals, contains_allowedTerminals, hfed.holds.grammar,
      hfed'.holds.grammar, hposition]
    simp only [h.isTerminal_eq, hrun.mem_statesAt_iff h hrun']
  · rw [halike.prefixProbability, halike'.prefixProbability, prefixProbability?, prefixProbability?,
      halgebra, halgebra', hvalue.toProbability, hvalue.toProbability,
      hfed.prefixScore_eq h hA hsolver hvalue hfed']
  · rw [halike.sentenceProbability, halike'.sentenceProbability, sentenceProbability?,
      sentenceProbability?, halgebra, halgebra', hposition, hfinal]
    congr 2
    exact List.map_congr_left fun s _ => (hcolumn s.position).inner s

theorem Twins.bestScore?_eq (n : Nat) : bestScore? p'.chart n = bestScore? p.chart n := by
  have hcolumn := (htwins.sameAnswers h hA hsolver hvalue hinjective).column
  obtain ⟨q, hfed, hagree⟩ := htwins.fed
  obtain ⟨q', hfed', hagree'⟩ := htwins.fed'
  unfold bestScore?
  rw [finalStates_congr hagree.column, finalStates_congr hagree'.column,
    finalStates_eq h hfed.holds.run hfed'.holds.run]
  congr 1
  funext s
  exact (hcolumn s.position).best s

omit htwins in
/-- Both charts of a list of tokens hold the same states with the same scores. -/
theorem parse_alike (goal : Category) (tokens : List Payload) :
    SucceedAlike (fun chart chart' =>
        (∀ k, Column.SameScores A (chart.column k) (chart'.column k)) ∧
        bestScore? chart' tokens.length = bestScore? chart tokens.length)
      (parse G goal tokens) (parse G' goal tokens) := by
  have hcreate := create_alike h goal
  unfold parse
  generalize create G goal = created at hcreate ⊢
  generalize create G' goal = created' at hcreate ⊢
  cases hcreate with
  | error e e' => exact .error _ _
  | @ok p p' htwins =>
    have hrun := htwins.run h tokens
    show SucceedAlike _
      ((p.run tokens).mapError ParseError.pattern >>= fun p => pure (p.chart.ensure tokens.length))
      ((p'.run tokens).mapError ParseError.pattern >>= fun p => pure (p.chart.ensure tokens.length))
    generalize p.run tokens = ran at hrun ⊢
    generalize p'.run tokens = ran' at hrun ⊢
    cases hrun with
    | error e e' => exact .error _ _
    | @ok q q' htwins =>
      obtain ⟨taken, htwins⟩ := htwins
      refine .ok ⟨fun k => ?_, ?_⟩
      · rw [Chart.column_ensure, Chart.column_ensure]
        exact (htwins.sameAnswers h hA hsolver hvalue hinjective).column k
      · rw [bestScore?_congr (q.chart.column_ensure _), bestScore?_congr (q'.chart.column_ensure _)]
        exact htwins.bestScore?_eq h hA hsolver hvalue hinjective _

end Common

end Parser
end StochasticGrammar
