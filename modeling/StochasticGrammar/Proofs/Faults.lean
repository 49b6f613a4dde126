import StochasticGrammar.Proofs.Refusal
import StochasticGrammar.Proofs.Stages

/-!
# Faulty patterns

A faulty pattern ends a scan in its midst. The parser stays where it was and still gives the answers
it gave, but the cells that had been moved before the pattern was met stay in the next column. They
are found there by the next token that is taken, and what they carry is counted again. A fault that
comes before any cell has moved is never seen again.

> `scan_eq_error`: a scan that is cut short has scanned the cells before the faulty one.

> `bestParse_mono`: more cells do not change a best parse that could be read without them.
-/

namespace StochasticGrammar.Parser

variable {P W : Type}

/-! ## The next column -/

theorem column_write_of_ne {p : Parser P W} (column : Column P W) {k : Nat}
    (hk : k ≠ p.position + 1) : (p.write column).chart.column k = p.chart.column k := by
  rw [column_write, if_neg hk]

theorem column_write_here (p : Parser P W) (column : Column P W) :
    (p.write column).chart.column p.position = p.chart.column p.position :=
  column_write_of_ne column (Nat.ne_of_lt (Nat.lt_succ_self _))

theorem finalStates_write (p : Parser P W) (column : Column P W) :
    finalStates (p.write column).chart p.position = finalStates p.chart p.position := by
  unfold finalStates Chart.completed
  rw [column_write_here]

theorem size_le_size_write {p : Parser P W} (hclear : Clear p) (column : Column P W) :
    p.chart.size ≤ (p.write column).chart.size := by
  refine countStates_mono fun k => ?_
  show (p.chart.column k).length ≤ ((p.write column).chart.column k).length
  rw [column_write]
  split
  · rename_i hk
    rw [hk, hclear _ (Nat.lt_succ_self _)]
    exact Nat.zero_le _
  · exact Nat.le_refl _

/-- Writing nothing changes nothing. -/
theorem agree_write_nil {p : Parser P W} (hclear : Clear p) : Agree (p.write []) p := by
  refine ⟨rfl, rfl, rfl, rfl, fun k => ?_⟩
  rw [column_write]
  split
  · rename_i hk
    rw [hk, hclear _ (Nat.lt_succ_self _)]
  · rfl

theorem isAccepted_write (p : Parser P W) (column : Column P W) :
    (p.write column).isAccepted = p.isAccepted :=
  congrArg (fun states => !List.isEmpty states) (finalStates_write p column)

theorem allowedTerminals_write (p : Parser P W) (column : Column P W) :
    (p.write column).allowedTerminals = p.allowedTerminals := by
  show ((((p.write column).chart.column p.position).filterMap (·.state.next?)).filter
    p.grammar.isTerminal).foldl addNew [] = _
  rw [column_write_here]
  rfl

variable [DecidableEq P] [DecidableEq W] {G : Grammar P W}

/-! ## A scan that is cut short -/

/-- A scan that finds nothing writes nothing. -/
theorem eq_of_scan_nil {k : Nat} {token : Payload} {prev col col' : Column P W}
    (h : scan G k token prev col = (col', .ok [])) : col' = col := by
  induction prev generalizing col with
  | nil =>
    cases h
    rfl
  | cons cell prev ih =>
    rcases scan_cons_eq_ok.mp h with ⟨_, hscan⟩ | ⟨_, more, hfound, _⟩
    · exact ih hscan
    · cases hfound

/-! ## Trees of a chart that grows -/

/-- Children that were read are read from a larger chart as well. -/
theorem children_mono {c d : Chart P W} (hbest : ∀ s b, c.best? s = some b → d.best? s = some b)
    {m n : Nat} (hmn : m ≤ n) {s : State P W} {kids : List Tree}
    (h : children G c m s = .ok kids) : children G d n s = .ok kids := by
  induction m generalizing n s kids with
  | zero => cases h
  | succ m ih =>
    obtain ⟨n, rfl⟩ : ∃ n', n = n' + 1 := ⟨n - 1, by omega⟩
    have hle : m ≤ n := by omega
    rw [children] at h ⊢
    by_cases hdot : s.dot = 0
    · rw [if_pos hdot] at h ⊢
      exact h
    · rw [if_neg hdot] at h ⊢
      -- a missing entry is an error, so that only states with an entry are left
      cases hb : c.best? s with
      | none =>
        rw [hb] at h
        cases h
      | some b =>
        rw [hb] at h
        rw [hbest s b hb]
        obtain ⟨kind, score, previous, completed, token⟩ := b
        rcases previous with _ | before
        · cases h
        rcases token with _ | token
        · rcases completed with _ | done
          · cases h
          · obtain ⟨inside, hinside, h⟩ := bind_eq_ok.mp h
            obtain ⟨last, hlast, h⟩ := bind_eq_ok.mp h
            obtain ⟨others, hothers, h⟩ := bind_eq_ok.mp h
            exact bind_eq_ok.mpr ⟨inside, ih hle hinside, bind_eq_ok.mpr ⟨last, hlast,
              bind_eq_ok.mpr ⟨others, ih hle hothers, h⟩⟩⟩
        · obtain ⟨others, hothers, h⟩ := bind_eq_ok.mp h
          exact bind_eq_ok.mpr ⟨others, ih hle hothers, h⟩

theorem bestTree_mono {c d : Chart P W} (hbest : ∀ s b, c.best? s = some b → d.best? s = some b)
    (hsize : c.size ≤ d.size) {s : State P W} {tree : Tree} (h : bestTree G c s = .ok tree) :
    bestTree G d s = .ok tree := by
  unfold bestTree at h ⊢
  cases hb : c.best? s with
  | none =>
    rw [hb] at h
    cases h
  | some b =>
    rw [hb] at h
    rw [hbest s b hb]
    obtain ⟨kids, hkids, h⟩ := bind_eq_ok.mp h
    exact bind_eq_ok.mpr ⟨kids, children_mono hbest (by omega) hkids, h⟩

/-- A best parse that was read is read from a larger chart with the same final states as well. -/
theorem bestParse_mono {c d : Chart P W} {k : Nat}
    (hbest : ∀ s b, c.best? s = some b → d.best? s = some b) (hsize : c.size ≤ d.size)
    (hfinal : finalStates d k = finalStates c k) {best : Option (Tree × W)}
    (h : bestParse G c k = .ok best) : bestParse G d k = .ok best := by
  unfold bestParse at h ⊢
  rw [hfinal]
  rcases hstates : finalStates c k with _ | ⟨final, _ | ⟨other, rest⟩⟩
  · rw [hstates] at h
    exact h
  · rw [hstates] at h
    obtain ⟨tree, htree, h⟩ := bind_eq_ok.mp h
    refine bind_eq_ok.mpr ⟨tree, bestTree_mono hbest hsize htree, ?_⟩
    cases hb : c.best? final with
    | none =>
      rw [hb] at h
      cases h
    | some b =>
      rw [hb] at h
      rw [hbest final b hb]
      exact h
  · rw [hstates] at h
    cases h

/-! ## What a fault leaves -/

/-- Offers tokens one by one, whatever comes of them: the parser afterwards and the answers. -/
def offers (p : Parser P W) : List Payload → Parser P W × List (Except Pattern.Error Bool)
  | [] => (p, [])
  | token :: rest =>
    let after := (p.step token).1.offers rest
    (after.1, (p.step token).2 :: after.2)

/-- Agreeing parsers give the same answers to whatever they are offered. -/
theorem Agree.offers {p q : Parser P W} (h : Agree p q) (tokens : List Payload) :
    (p.offers tokens).2 = (q.offers tokens).2 ∧ Agree (p.offers tokens).1 (q.offers tokens).1 := by
  induction tokens generalizing p q with
  | nil => exact ⟨rfl, h⟩
  | cons token tokens ih =>
    obtain ⟨hanswer, hafter⟩ := h.step token
    obtain ⟨hanswers, hagree⟩ := ih hafter
    exact ⟨congrArg₂ List.cons hanswer hanswers, hagree⟩

/-- A column that is written into an empty one adds derivations and takes none away. -/
theorem best?_write {p : Parser P W} (hclear : Clear p) (column : Column P W) (s : State P W)
    (b : Backpointer P W) (h : p.chart.best? s = some b) :
    (p.write column).chart.best? s = some b := by
  unfold Chart.best? at h ⊢
  rw [column_write]
  split
  · rename_i hposition
    rw [hposition, hclear _ (Nat.lt_succ_self _)] at h
    cases h
  · exact h

/-- The sentence probability reads the parser's own column only, where all states stand there. -/
theorem sentenceProbability?_write {p : Parser P W} (column : Column P W)
    (hplaced : ∀ cell ∈ p.chart.column p.position, cell.state.position = p.position) :
    (p.write column).sentenceProbability? = p.sentenceProbability? := by
  have hinner :
      (finalStates p.chart p.position).map ((p.write column).chart.inner p.grammar.algebra)
      = (finalStates p.chart p.position).map (p.chart.inner p.grammar.algebra) := by
    refine List.map_congr_left fun s hs => ?_
    obtain ⟨cell, hcell, rfl⟩ :=
      List.mem_map.mp (List.mem_of_mem_filter (List.mem_of_mem_filter hs))
    unfold Chart.inner
    rw [hplaced cell hcell, column_write_here]
  show p.grammar.algebra.toProbability (p.grammar.algebra.sum
    ((finalStates (p.write column).chart p.position).map
      ((p.write column).chart.inner p.grammar.algebra))) = _
  rw [finalStates_write, hinner]
  rfl

variable [Probability P] [PositiveSums P] {solver : Solver P} {A : ScoreAlgebra P W}
  {goal : Category}

/-- **What a faulty pattern leaves behind.** A step that meets one keeps the parser's place, its
prefix score and every column but the next, and every answer that can be read off. The next column
holds what the cells before the faulty one had moved into it; if they moved nothing, then whatever
is offered later is answered as if the step had not been made. -/
theorem faulty_step_leaves_only_scanned_cells {p₀ p q : Parser P W} {tokens taken : List Payload}
    {token : Payload} {e : Pattern.Error} (hG : G.Built solver A) (hcreate : create G goal = .ok p₀)
    (hfeed : p₀.feed tokens = .ok (p, taken)) (hstep : p.step token = (q, .error e)) :
    q.position = p.position ∧ q.prefixScore = p.prefixScore ∧
    (∀ k, k ≠ p.position + 1 → q.chart.column k = p.chart.column k) ∧
    q.prefixProbability? = p.prefixProbability? ∧
    q.sentenceProbability? = p.sentenceProbability? ∧ q.isAccepted = p.isAccepted ∧
    q.allowedTerminals = p.allowedTerminals ∧
    (∀ best, bestParse G p.chart p.position = .ok best →
      bestParse G q.chart q.position = .ok best) ∧
    ∃ before cell after c scanned, p.chart.column p.position = before ++ cell :: after ∧
      cell.state.next? = some c ∧ G.isTerminal c = true ∧ c.accepts token = .error e ∧
      scan G (p.position + 1) token before [] = (q.chart.column (p.position + 1), .ok scanned) ∧
      (scanned = [] → ∀ more, (q.offers more).2 = (p.offers more).2 ∧
        Alike (q.offers more).1 (p.offers more).1) := by
  have hclear : Clear p := clear_of_feed (clear_create hcreate) hfeed
  obtain ⟨fed, hfed, hagree⟩ := exists_fed_of_feed hcreate hfeed
  have hgrammar : p.grammar = G := hagree.grammar.trans hfed.holds.grammar
  have hshaped : Shaped G goal p.position (p.chart.column p.position) := by
    rw [hagree.column]
    exact hfed.holds.run.pastShaped hG.compiled.1 p.position
  obtain ⟨column, hmeets, rfl⟩ := eq_write_of_step hstep
  refine ⟨rfl, rfl, fun k hk => column_write_of_ne column hk, rfl,
    sentenceProbability?_write column fun cell hcell => (hshaped.fits cell hcell).position,
    isAccepted_write p column, allowedTerminals_write p column, ?_, ?_⟩
  · intro best hbest
    exact bestParse_mono (best?_write hclear column) (size_le_size_write hclear column)
      (finalStates_write p column) hbest
  · unfold meets at hmeets
    rw [hclear _ (Nat.lt_succ_self _), hgrammar] at hmeets
    obtain ⟨before, cell, after, c, scanned, hsplit, hc, hterm, haccepts, hscan⟩ :=
      scan_eq_error hmeets
    refine ⟨before, cell, after, c, scanned, hsplit, hc, hterm, haccepts, ?_, ?_⟩
    · rw [column_write, if_pos rfl]
      exact hscan
    · intro hnil more
      rw [hnil] at hscan
      rw [eq_of_scan_nil hscan]
      obtain ⟨hanswers, hafter⟩ := (agree_write_nil hclear).offers more
      exact ⟨hanswers, hafter.alike⟩

/-- The rules of a grammar in which any token is a sentence, and so is a text that matches a pattern
that cannot be read. -/
def faultyBuilder : Except (GrammarError ℚ) (Builder ℚ ℚ) := do
  let b := Builder.empty (linearScores ℚ) false
  let b ← b.add ⟨.plain, .name "S", [.terminal .any]⟩ (1 / 2)
  b.add ⟨.plain, .name "S", [.terminal (.pattern "(" 0)]⟩ (1 / 2)

/-- The grammar of these rules. -/
def faultyGrammar : Except (GrammarError ℚ) (Grammar ℚ ℚ) := do
  (← faultyBuilder).build rationalSolver

theorem built_faultyGrammar {G : Grammar ℚ ℚ} (h : faultyGrammar = .ok G) :
    G.Built rationalSolver (linearScores ℚ) := by
  obtain ⟨b, hb, hG⟩ := bind_eq_ok.mp h
  obtain ⟨b₁, h₁, hb⟩ := bind_eq_ok.mp hb
  exact ⟨b, .add (.add (.empty false) h₁) hb, hG⟩

set_option maxRecDepth 100000 in
/-- A fault leaves the scanned cell of the other rule behind: a number, which the pattern does not
even look at, is then read with twice its probability. -/
theorem faulty_step_doubles_a_later_score :
    ∃ G p, faultyGrammar = .ok G ∧ create G (.name "S") = .ok p ∧
      (p.step (.text "a")).2.toOption = none ∧
      (p.step (.integer 1)).1.prefixProbability? = some (1 / 2) ∧
      ((p.step (.text "a")).1.step (.integer 1)).1.prefixProbability? = some 1 := by
  have hcheck : (faultyGrammar.toOption.any fun G => (create G (.name "S")).toOption.any fun p =>
      decide ((p.step (.text "a")).2.toOption = none ∧
        (p.step (.integer 1)).1.prefixProbability? = some (1 / 2) ∧
        ((p.step (.text "a")).1.step (.integer 1)).1.prefixProbability? = some 1)) = true := by
    decide +kernel
  obtain ⟨G, hG, hcheck⟩ := any_toOption.mp hcheck
  obtain ⟨p, hp, hcheck⟩ := any_toOption.mp hcheck
  exact ⟨G, p, hG, hp, of_decide_eq_true hcheck⟩

set_option maxRecDepth 100000 in
/-- Right after the fault the parser answers what it answered before: the empty input begins a
sentence and is none. -/
theorem faulty_step_keeps_the_empty_parse :
    ∃ G p q e, faultyGrammar = .ok G ∧ create G (.name "S") = .ok p ∧
      p.step (.text "a") = (q, .error e) ∧ q.position = 0 ∧
      q.prefixProbability? = p.prefixProbability? ∧ q.allowedTerminals = p.allowedTerminals ∧
      bestParse G q.chart q.position = .ok none := by
  have hcheck : (faultyGrammar.toOption.any fun G => (create G (.name "S")).toOption.any fun p =>
      decide ((p.step (.text "a")).2.toOption = none) &&
        (bestParse G p.chart p.position).toOption.any Option.isNone) = true := by
    decide +kernel
  obtain ⟨G, hG, hcheck⟩ := any_toOption.mp hcheck
  obtain ⟨p, hp, hcheck⟩ := any_toOption.mp hcheck
  obtain ⟨hfault, hbest⟩ := Bool.and_eq_true_iff.mp hcheck
  obtain ⟨best, hbest, hnone⟩ := any_toOption.mp hbest
  have hposition : p.position = 0 := position_create hp
  have hfeed : p.feed [] = .ok (p, []) := rfl
  cases hstep : p.step (.text "a") with
  | mk q answer =>
    cases answer with
    | ok b =>
      rw [hstep] at hfault
      cases hfault
    | error e =>
      obtain ⟨hq, _, _, hprefix, _, _, hallowed, hparse, _⟩ :=
        faulty_step_leaves_only_scanned_cells (built_faultyGrammar hG) hp hfeed hstep
      rw [Option.isNone_iff_eq_none.mp hnone] at hbest
      exact ⟨G, p, q, e, hG, hp, hstep, hq.trans hposition, hprefix, hallowed, hparse none hbest⟩

end StochasticGrammar.Parser
