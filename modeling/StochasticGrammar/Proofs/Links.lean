import StochasticGrammar.Proofs.Improvement
import StochasticGrammar.Proofs.Items

/-!
# The best derivations of a chart

What the search leaves in every column of a chart, put together: how each best derivation came
about, that back pointers within a column close no cycle, and that no step of the parser leads to
anything better. Scores pass through the summed chains of unit rules, best derivations through one
unit rule at a time; still no state is left without a derivation.

> `Course.tied`: what holds of the best derivations of a parser, whatever it went through.

> `Charted.linked`: what holds of the best derivations of any chart.

> `Linked.found`: every state of a chart has a best derivation.
-/

namespace StochasticGrammar.Parser

open Relation (ReflTransGen)

variable {P W : Type} [DecidableEq P] [DecidableEq W] [Probability P] {solver : Solver P}
  {G : Grammar P W} {goal : Category} {tokens : List Payload} {columns : List (Column P W)}

/-- The score that a rule starts out with. -/
inductive Begins (G : Grammar P W) (goal : Category) : Rule P W → W → Prop
  | start : Begins G goal (startRule G.algebra goal) G.algebra.one
  | empty {q : Production P W} (hnull : G.isNullable goal = true) (hq : emptyStart G goal = .ok q) :
      Begins G goal q.rule q.best
  | used {x : Category} {q : Production P W} (hq : q ∈ G.productionsOf x) :
      Begins G goal q.rule q.best

/-- A derivation that has found nothing yet. -/
structure Begun (G : Grammar P W) (goal : Category) (r : Rule P W) (b : Backpointer P W) :
    Prop where
  kind : b.kind ≠ .completed
  previous : b.previous = none
  completed : b.completed = none
  score : Begins G goal r b.score

/-- The best derivations of one column, over the columns before it and the tokens that were read. -/
structure TiedColumn (G : Grammar P W) (goal : Category) (read : Payload → Prop)
    (past : List (Column P W)) (k : Nat) (col : Column P W) : Prop where
  begins : ∀ {c}, c ∈ col → c.state.dot = 0 →
    ∃ b, c.best = some b ∧ Begun G goal c.state.rule b
  entries : ∀ {c b}, c ∈ col → c.state.dot ≠ 0 → c.best = some b →
    Entry G past k read col c.state b
  attainable : AllAttainable G col
  acyclic : Acyclic (points col)
  settled : ∀ {done}, IsOpen k col done → Settled G past k col done

/-- The best derivations of one column of a run: also a scan leads to nothing better. -/
structure LinkedColumn (G : Grammar P W) (goal : Category) (tokens : List Payload)
    (past : List (Column P W)) (k : Nat) (col : Column P W) : Prop
    extends TiedColumn G goal (fun token => tokens[k - 1]? = some token) past k col where
  scanned : ∀ {j p b token}, k = j + 1 → tokens[j]? = some token → p ∈ pastColumn past j →
    Takes G token p.state → p.best = some b →
    ∃ t, col.best? (p.state.advance k) = some t ∧ ¬ Worse G t.score b.score

omit [DecidableEq P] [DecidableEq W] in
/-- A state begins with an attainable score. -/
theorem Begins.attainable {r : Rule P W} {w : W} (h : Begins G goal r w) : Attainable G w := by
  cases h with
  | start => exact .one
  | empty hnull hq =>
    rw [emptyStart_eq_ok hq]
    exact .empty hnull
  | used hq => exact .production hq

/-! ## The first column -/

/-- The states that a chart begins with have found nothing yet. -/
theorem Seeded.begins {base : Column P W} (h : Seeded G goal base) {c : Cell P W} (hc : c ∈ base) :
    ∃ b, c.best = some b ∧ Begun G goal c.state.rule b := by
  rcases (h.mem c).mp hc with rfl | ⟨hnull, q, hq, rfl⟩
  · exact ⟨_, rfl, nofun, rfl, rfl, .start⟩
  · exact ⟨_, rfl, nofun, rfl, rfl, .empty hnull hq⟩

/-- Predicted states have found nothing yet. -/
theorem begins_of_isPredicted [PositiveSums P] (hG : G.Compiled solver) {k : Nat} {s : State P W}
    {q : Production P W} (hq : q ∈ calls G s) {c : Cell P W} (hc : IsPredicted G.algebra k q c) :
    ∃ b, c.best = some b ∧ Begun G goal c.state.rule b := by
  obtain ⟨_, _, _, _, x, _, hqx⟩ := (mem_calls hG).mp hq
  refine ⟨_, hc.best, nofun, rfl, rfl, ?_⟩
  rw [hc.state]
  exact .used hqx

/-- In the first column everything begins. -/
theorem tiedColumn_zero [PositiveSums P] (hG : G.Compiled solver) {base col : Column P W}
    (hbase : Seeded G goal base) (h : Predicted G goal 0 base col) (read : Payload → Prop)
    (past : List (Column P W)) : TiedColumn G goal read past 0 col := by
  have hbegins : ∀ c ∈ col,
      ∃ b, c.best = some b ∧ Begun G goal c.state.rule b := by
    intro c hc
    rcases h.cases c hc with hc | ⟨d, _, q, hq, hqc⟩
    · exact hbase.begins hc
    · exact begins_of_isPredicted hG hq hqc
  refine ⟨fun {c} hc _ => hbegins c hc, fun {c b} hc hdot => ?_, fun s b hb => ?_, ?_,
    fun {done} hopen => absurd hopen.2.2 (Nat.not_lt_zero _)⟩
  · have hfits := h.shaped.fits c hc
    exact absurd (hfits.origin_lt (Nat.pos_of_ne_zero hdot)) (Nat.not_lt_zero _)
  · obtain ⟨c, hc, hcb⟩ := Option.bind_eq_some_iff.mp hb
    obtain ⟨b', hb', hbegun⟩ := hbegins c (Column.mem_of_find? hc).1
    rw [hb'] at hcb
    cases hcb
    exact hbegun.score.attainable
  · intro s hs
    obtain ⟨d, ⟨c, hc, _, b, hb, hd⟩, _⟩ := Relation.TransGen.head'_iff.mp hs
    obtain ⟨b', hb', hbegun⟩ := hbegins c hc
    rw [hb'] at hb
    cases hb
    rw [hbegun.completed] at hd
    cases hd

/-! ## Later columns -/

section Finished

variable {past : List (Column P W)} {k : Nat} {read : Payload → Prop} {token : Payload}
  {base mid col : Column P W} {order : List (State P W)}

omit [DecidableEq P] [DecidableEq W] [Probability P] in
theorem best_foldl_receive (A : ScoreAlgebra P W) (log : List (Move P W)) (c : Cell P W) :
    (log.foldl (Move.receive A) c).best = c.best := by
  induction log generalizing c with
  | nil => rfl
  | cons m log ih => exact ih _

/-- Completing the scores leaves best derivations as they were scanned. -/
theorem Finished.of_best (hG : G.Compiled solver)
    (h : Finished G goal past k read base mid col order) {c : Cell P W} (hc : c ∈ mid)
    {b : Backpointer P W} (hb : c.best = some b) :
    ∃ p ∈ pastColumn past k, ∃ b' token, p.best = some b' ∧ read token ∧ Takes G token p.state ∧
      c.state = p.state.advance (k + 1) ∧
      b = ⟨.scanned, b'.score, some p.state, none, some token⟩ := by
  have hfits := h.completed.filled.shaped.fits c hc
  have hcell := h.completed.filled.cell c.state hfits.rule
  rw [Column.cell_of_mem G.algebra h.completed.filled.shaped.distinct hc] at hcell
  rw [hcell, best_foldl_receive, Column.cell] at hb
  cases hfind : base.find? c.state with
  | none =>
    rw [hfind] at hb
    cases hb
  | some d =>
    rw [hfind] at hb
    obtain ⟨hd, hds⟩ := Column.mem_of_find? hfind
    have heq := (State.beq_iff_eq (discrete_chartRule hG) (h.swept.shaped.fits d hd).rule
      hfits.rule).mp hds
    obtain ⟨p, hp, token, hread, htakes, hstate, hbest⟩ := h.swept.moved d hd
    obtain ⟨b', hb', rfl⟩ := Option.map_eq_some_iff.mp (hbest.symm.trans hb)
    exact ⟨p, hp, b', token, hb', hread, htakes, heq.symm.trans hstate, rfl⟩

/-- A scanned state keeps its derivation while the scores are completed. -/
theorem Grown.best?_mid
    (h : Grown G goal past k token base mid col order) {p : Cell P W}
    (hp : p ∈ pastColumn past k) {b : Backpointer P W} (hb : p.best = some b)
    (htakes : Takes G token p.state) :
    mid.best? (p.state.advance (k + 1))
      = some ⟨.scanned, b.score, some p.state, none, some token⟩ := by
  have hbase := (h.scanned.mem _).mpr ⟨p, hp, htakes, rfl⟩
  have hfits := h.scanned.shaped.fits _ hbase
  have hmid : (shifted G.algebra (k + 1) token p).state ∈ mid.states :=
    (h.completed.filled.mem_states _).mpr (Or.inl (mem_states.mpr ⟨_, hbase, rfl⟩))
  obtain ⟨c, hc, hcs⟩ := mem_states.mp hmid
  have hcell := h.completed.filled.cell c.state (h.completed.filled.shaped.fits c hc).rule
  rw [Column.cell_of_mem G.algebra h.completed.filled.shaped.distinct hc, hcs,
    Column.cell_of_mem G.algebra h.scanned.shaped.distinct hbase] at hcell
  have hbest := Column.best?_of_mem h.completed.filled.shaped.distinct hc
  rw [hcs] at hbest
  refine hbest.trans ?_
  rw [hcell, best_foldl_receive, shifted, hb]
  rfl

theorem Finished.searchBase (hG : G.Compiled solver)
    (h : Finished G goal past k read base mid col order) (hgoal : goal ≠ .start)
    (hpast : PastShaped G goal past) (hready : PastReady G past) :
    SearchBase G goal past (k + 1) mid := by
  refine ⟨hgoal, hpast, hready, h.completed.filled.shaped, h.closed, fun s b hb => ?_⟩
  obtain ⟨c, hc, hcb⟩ := Option.bind_eq_some_iff.mp hb
  obtain ⟨p, hp, b', _, hb', _, _, _, rfl⟩ := h.of_best hG (Column.mem_of_find? hc).1 hcb
  show Attainable G b'.score
  exact hready.attainable hp hb'

/-- **The best derivations of a finished column have been improved to the end.** -/
theorem Finished.improved (hG : G.Compiled solver) (hnever : NeverRaises G)
    (h : Finished G goal past k read base mid col order) (hgoal : goal ≠ .start)
    (hpast : PastShaped G goal past) (hready : PastReady G past) :
    Improved G past (k + 1) read mid (completeBest G.algebra past (k + 1) mid) := by
  refine improved_completeBest hG hnever (h.searchBase hG hgoal hpast hready) ?_ ?_
  · intro c b hc hb
    obtain ⟨p, hp, b', token, hb', hread, htakes, hstate, rfl⟩ := h.of_best hG hc hb
    rw [hstate]
    exact .scanned rfl hp hb' hread htakes
  · intro c b hc hb
    obtain ⟨p, hp, b', token, hb', _, _, _, rfl⟩ := h.of_best hG hc hb
    rfl

theorem Finished.closed_best (h : Finished G goal past k read base mid col order) :
    Closed past (k + 1) (completeBest G.algebra past (k + 1) mid) := by
  intro done hopen cell hcell
  rw [states_eq_of_core_eq h.core]
  exact h.closed done (isOpen_of_core_eq h.core hopen) cell hcell

/-- The best derivations of a later column before anything is predicted. -/
theorem Finished.tiedColumn_best (hG : G.Compiled solver) (hnever : NeverRaises G)
    (h : Finished G goal past k read base mid col order) (hgoal : goal ≠ .start)
    (hpast : PastShaped G goal past) (hready : PastReady G past) :
    TiedColumn G goal read past (k + 1) (completeBest G.algebra past (k + 1) mid) := by
  have himproved := h.improved hG hnever hgoal hpast hready
  refine ⟨fun {c} hc hdot => ?_, fun {c b} hc _ hb => himproved.entries hc hb,
    himproved.attainable, himproved.acyclic, fun {done} hopen => himproved.settled done hopen⟩
  refine absurd hdot (h.kernel c.state ?_)
  rw [← states_eq_of_core_eq h.core]
  exact mem_states.mpr ⟨c, hc, rfl⟩

/-- Prediction leaves the best derivations of what was there before as they are. -/
theorem Predicted.best?_eq (h : Predicted G goal k base col) (hbase : base.Distinct) {s : State P W}
    (hs : s ∈ base.states) : col.best? s = base.best? s := by
  obtain ⟨c, hc, rfl⟩ := mem_states.mp hs
  rw [Column.best?_of_mem h.shaped.distinct (h.keeps c hc), Column.best?_of_mem hbase hc]

/-- An entry over a column stays one over the column after prediction. -/
theorem Entry.predicted (h : Predicted G goal k base col) (hbase : base.Distinct) {s : State P W}
    {b : Backpointer P W} (he : Entry G past k read base s b) : Entry G past k read col s b := by
  cases he with
  | scanned hk hp hb hread htakes => exact .scanned hk hp hb hread htakes
  | completed hopen hp hb hd hw hle =>
    obtain ⟨c, hc, hcs⟩ := mem_states.mp hopen.1
    refine .completed ⟨mem_states.mpr ⟨c, h.keeps c hc, hcs⟩, hopen.2⟩ hp hb ?_ hw hle
    rw [h.best?_eq hbase hopen.1]
    exact hd

/-- Prediction adds derivations that begin, and changes no other. -/
theorem TiedColumn.predicted [PositiveSums P] (hG : G.Compiled solver)
    (h : TiedColumn G goal read past k base) (hbase : Shaped G goal k base)
    (hclosed : Closed past k base) (hpred : Predicted G goal k base col) :
    TiedColumn G goal read past k col := by
  have hbest := fun {s} => hpred.best?_eq hbase.distinct (s := s)
  -- what has found something was there before prediction
  have hmem : ∀ {c}, c ∈ col → c.state.dot ≠ 0 → c ∈ base := by
    intro c hc hdot
    rcases hpred.cases c hc with hc | ⟨_, _, q, _, hqc⟩
    · exact hc
    · rw [hqc.state] at hdot
      exact absurd rfl hdot
  have hbegins : ∀ {c}, c ∈ col → c.state.dot = 0 →
      ∃ b, c.best = some b ∧ Begun G goal c.state.rule b := by
    intro c hc hdot
    rcases hpred.cases c hc with hc | ⟨d, _, q, hq, hqc⟩
    · exact h.begins hc hdot
    · exact begins_of_isPredicted hG hq hqc
  refine ⟨hbegins, fun {c b} hc hdot hb => ?_, fun s b hb => ?_, ?_, fun {done} hdone => ?_⟩
  · exact (h.entries (hmem hc hdot) hdot hb).predicted hpred hbase.distinct
  · obtain ⟨c, hfind, hcb⟩ := Option.bind_eq_some_iff.mp hb
    have hc := (Column.mem_of_find? hfind).1
    by_cases hdot : c.state.dot = 0
    · obtain ⟨b', hb', hbegun⟩ := hbegins hc hdot
      rw [hb'] at hcb
      cases hcb
      exact hbegun.score.attainable
    · refine h.attainable c.state b ?_
      rw [Column.best?_of_mem hbase.distinct (hmem hc hdot)]
      exact hcb
  · refine h.acyclic.mono ?_
    rintro s done ⟨c, hc, rfl, b, hb, hdone⟩
    refine ⟨c, hmem hc fun hdot => ?_, rfl, b, hb, hdone⟩
    obtain ⟨b', hb', hbegun⟩ := hbegins hc hdot
    rw [hb'] at hb
    cases hb
    rw [hbegun.completed] at hdone
    cases hdone
  · intro d hd p hp b hb
    obtain ⟨hstates, hcomplete, hlt⟩ := hdone
    obtain ⟨c, hc, rfl⟩ := mem_states.mp hstates
    have hdot := (hpred.shaped.fits c hc).dot_pos_iff.mpr hlt
    have hopen : IsOpen k base c.state :=
      ⟨mem_states.mpr ⟨c, hmem hc (Nat.ne_of_gt hdot), rfl⟩, hcomplete, hlt⟩
    rw [hbest hopen.1] at hd
    obtain ⟨t, ht, hnot⟩ := h.settled hopen d hd p hp b hb
    refine ⟨t, ?_, hnot⟩
    rw [hbest (hclosed _ hopen p hp)]
    exact ht

/-- **The best derivations of a later column.** -/
theorem Finished.tiedColumn [PositiveSums P] (hG : G.Compiled solver) (hnever : NeverRaises G)
    (h : Finished G goal past k read base mid col order) (hgoal : goal ≠ .start)
    (hpast : PastShaped G goal past) (hready : PastReady G past) :
    TiedColumn G goal read past (k + 1) col :=
  (h.tiedColumn_best hG hnever hgoal hpast hready).predicted hG h.shaped h.closed_best h.predicted

theorem Entry.imp {read' : Payload → Prop} (himp : ∀ token, read token → read' token)
    {s : State P W} {b : Backpointer P W} (h : Entry G past k read col s b) :
    Entry G past k read' col s b := by
  cases h with
  | scanned hk hp hb hread htakes => exact .scanned hk hp hb (himp _ hread) htakes
  | completed hopen hp hb hd hw hle => exact .completed hopen hp hb hd hw hle

theorem TiedColumn.imp {read' : Payload → Prop} (himp : ∀ token, read token → read' token)
    (h : TiedColumn G goal read past k col) : TiedColumn G goal read' past k col :=
  ⟨h.begins, fun {_ _} hc hdot hb => (h.entries hc hdot hb).imp himp, h.attainable, h.acyclic,
    h.settled⟩

/-- **A column that grew from a token is linked to the columns before it.** -/
theorem Grown.linkedColumn [PositiveSums P] (hG : G.Compiled solver) (hnever : NeverRaises G)
    (h : Grown G goal past k token base mid col order) (hgoal : goal ≠ .start)
    (hpast : PastShaped G goal past) (hready : PastReady G past)
    (htoken : tokens[k]? = some token) :
    LinkedColumn G goal tokens past (k + 1) col := by
  have hread : ∀ token', token' = token → tokens[k]? = some token' := fun _ heq => heq ▸ htoken
  refine ⟨(h.tiedColumn hG hnever hgoal hpast hready).imp hread, ?_⟩
  intro j p b token' hj htoken' hp htakes hb
  cases hj
  rw [htoken] at htoken'
  cases htoken'
  obtain ⟨t, ht, hnot⟩ := (h.improved hG hnever hgoal hpast hready).noWorse _ _
    (h.best?_mid hp hb htakes)
  refine ⟨t, ?_, hnot⟩
  rw [h.predicted.best?_eq h.shaped.distinct]
  · exact ht
  · rw [states_eq_of_core_eq h.core]
    exact (h.completed.filled.mem_states _).mpr (Or.inl (mem_states.mpr
      ⟨_, (h.scanned.mem _).mpr ⟨p, hp, htakes, rfl⟩, rfl⟩))

end Finished

/-! ## Whole charts -/

theorem TiedColumn.congr {read : Payload → Prop} {past past' : List (Column P W)} {k : Nat}
    {col : Column P W} (h : TiedColumn G goal read past k col)
    (hpast : ∀ j, j < k → pastColumn past' j = pastColumn past j) :
    TiedColumn G goal read past' k col := by
  refine ⟨h.begins, fun {c b} hc hdot hb => ?_, h.attainable, h.acyclic, fun {done} hopen => ?_⟩
  · have hentry := h.entries hc hdot hb
    generalize c.state = s at hentry
    cases hentry with
    | @scanned j p b' token hk hp hb' hread htakes =>
      rw [← hpast j (by omega)] at hp
      exact .scanned hk hp hb' hread htakes
    | completed hopen hp hb' hd hw hle =>
      rw [← hpast _ hopen.2.2] at hp
      exact .completed hopen hp hb' hd hw hle
  · have hsettled := h.settled hopen
    unfold Settled at hsettled ⊢
    rw [hpast _ hopen.2.2]
    exact hsettled

theorem LinkedColumn.congr {past past' : List (Column P W)} {k : Nat} {col : Column P W}
    (h : LinkedColumn G goal tokens past k col)
    (hpast : ∀ j, j < k → pastColumn past' j = pastColumn past j) :
    LinkedColumn G goal tokens past' k col := by
  refine ⟨h.toTiedColumn.congr hpast, fun {j p b token} hj htoken hp => ?_⟩
  rw [hpast j (by omega)] at hp
  exact h.scanned hj htoken hp

/-- What a later column may rely on. -/
theorem pastReady_of_tied (hpast : PastShaped G goal columns) {read : Payload → Prop} {n : Nat}
    (h : ∀ j, j < n → TiedColumn G goal read columns j (pastColumn columns j)) :
    PastReady G (columns.take n) := by
  have hmem : ∀ {j : Nat} {p : Cell P W}, p ∈ pastColumn (columns.take n) j →
      j < n ∧ p ∈ pastColumn columns j := by
    intro j p hp
    by_cases hj : j < n
    · rw [pastColumn_take hj] at hp
      exact ⟨hj, hp⟩
    · rw [pastColumn_of_ge (Nat.le_trans (List.length_take_le n columns)
        (Nat.le_of_not_lt hj))] at hp
      cases hp
  refine ⟨fun {j p b} hp hb => ?_, fun {j p b} hp hdot hlhs hb => ?_⟩
  · obtain ⟨hj, hp⟩ := hmem hp
    refine (h j hj).attainable p.state b ?_
    rw [Column.best?_of_mem (hpast j).distinct hp]
    exact hb
  · obtain ⟨hj, hp⟩ := hmem hp
    obtain ⟨b', hb', hbegun⟩ := (h j hj).begins hp hdot
    rw [hb] at hb'
    cases hb'
    have hscore := hbegun.score
    generalize p.state.rule = r at hscore hlhs
    generalize b.score = w at hscore
    cases hscore with
    | start => exact absurd rfl hlhs
    | empty _ hq =>
      rw [emptyStart_eq_ok hq] at hlhs
      exact absurd rfl hlhs
    | used hq => exact ⟨_, _, hq, rfl⟩

/-- The best derivations of all columns, whatever tokens were read. -/
structure Tied (G : Grammar P W) (goal : Category) (columns : List (Column P W)) : Prop where
  shaped : PastShaped G goal columns
  column : ∀ k, TiedColumn G goal (fun _ => True) columns k (pastColumn columns k)

theorem Tied.pastReady (h : Tied G goal columns) : PastReady G columns := by
  have hready := pastReady_of_tied h.shaped (n := columns.length) fun j _ => h.column j
  rwa [List.take_length] at hready

/-- Whether a chart is tied depends on its columns only. -/
theorem Tied.congr {columns' : List (Column P W)} (h : Tied G goal columns)
    (hcols : ∀ k, pastColumn columns' k = pastColumn columns k) : Tied G goal columns' := by
  refine ⟨fun k => ?_, fun k => ?_⟩
  · rw [hcols]
    exact h.shaped k
  · rw [hcols]
    exact (h.column k).congr fun j _ => hcols j

/-- An empty column has nothing to show. -/
theorem tiedColumn_nil (read : Payload → Prop) (k : Nat) : TiedColumn G goal read columns k [] := by
  refine ⟨fun {c} hc => (by cases hc),
    fun {c b} hc => (by cases hc), fun s b hb => (by cases hb), ?_,
    fun {done} hopen => (by cases hopen.1)⟩
  intro s hs
  obtain ⟨d, ⟨c, hc, _⟩, _⟩ := Relation.TransGen.head'_iff.mp hs
  cases hc

/-- A tied column may follow tied ones. -/
theorem Tied.snoc (h : Tied G goal columns) {col : Column P W}
    (hshaped : Shaped G goal columns.length col)
    (hcol : TiedColumn G goal (fun _ => True) columns columns.length col) :
    Tied G goal (columns ++ [col]) := by
  have hbefore : ∀ {j}, j < columns.length →
      pastColumn (columns ++ [col]) j = pastColumn columns j :=
    fun hj => pastColumn_append_left hj [col]
  refine ⟨h.shaped.snoc hshaped, fun k => ?_⟩
  rcases Nat.lt_trichotomy k columns.length with hlt | rfl | hgt
  · rw [hbefore hlt]
    exact (h.column k).congr fun j hj => hbefore (hj.trans hlt)
  · rw [pastColumn_append_self]
    exact hcol.congr fun j hj => hbefore hj
  · rw [pastColumn_of_ge (by simpa using hgt)]
    exact tiedColumn_nil _ _

/-- **The best derivations of the columns of a parser**, also where a faulty pattern had cut a scan
short. -/
theorem Course.tied [PositiveSums P] (hG : G.Compiled solver) (hnever : NeverRaises G)
    (h : Course G goal columns) : Tied G goal columns := by
  have hpast := h.pastShaped hG
  refine ⟨hpast, fun k => ?_⟩
  induction k using Nat.strong_induction_on with
  | _ k ih =>
    cases k with
    | zero =>
      obtain ⟨base, hseeded, hpredicted⟩ := h.seeded hG
      exact tiedColumn_zero hG hseeded hpredicted _ columns
    | succ k =>
      rcases Nat.lt_or_ge (k + 1) columns.length with hlt | hge
      · obtain ⟨base, mid, order, hfinished⟩ := h.finished hG hlt
        refine (hfinished.tiedColumn hG hnever h.goal_ne (hpast.take _)
          (pastReady_of_tied hpast ih)).congr fun j hj => ?_
        rw [pastColumn_take hj]
      · rw [pastColumn_of_ge hge]
        exact tiedColumn_nil _ _

/-- The best derivations of all columns of a run. -/
def Linked (G : Grammar P W) (goal : Category) (tokens : List Payload)
    (columns : List (Column P W)) : Prop :=
  ∀ k, LinkedColumn G goal tokens columns k (pastColumn columns k)

/-- **The chart of every run is linked.** -/
theorem Run.linked [PositiveSums P] (hG : G.Compiled solver) (hnever : NeverRaises G)
    (h : Run G goal tokens columns) : Linked G goal tokens columns := by
  have htied := (h.course hG).tied hG hnever
  intro k
  cases k with
  | zero =>
    obtain ⟨base, hseeded, hpredicted⟩ := h.seeded hG
    exact ⟨tiedColumn_zero hG hseeded hpredicted _ columns, fun {j p b token} hj => (by cases hj)⟩
  | succ k =>
    cases htoken : tokens[k]? with
    | none =>
      have hlength : columns.length ≤ k + 1 := by
        rw [h.length]
        exact Nat.succ_le_succ (List.getElem?_eq_none_iff.mp htoken)
      rw [pastColumn_of_ge hlength]
      refine ⟨tiedColumn_nil _ _, fun {j p b token} hj htoken' => ?_⟩
      cases hj
      rw [htoken] at htoken'
      cases htoken'
    | some token =>
      obtain ⟨base, mid, order, hgrown⟩ := h.grown hG htoken
      refine (hgrown.linkedColumn hG hnever h.goal_ne (htied.shaped.take _)
        (pastReady_of_tied htied.shaped fun j _ => htied.column j) htoken).congr fun j hj => ?_
      rw [pastColumn_take hj]

/-- **The best derivations of any chart.** -/
theorem Charted.linked [PositiveSums P] (hG : G.Compiled solver) (hnever : NeverRaises G)
    (h : Charted G goal tokens columns) : Linked G goal tokens columns := by
  obtain ⟨taken, rest, past, rfl, hrun, rfl, hstuck⟩ := h
  intro k
  have hcol : ∀ k, pastColumn (past ++ List.replicate rest.length []) k = pastColumn past k :=
    fun k => pastColumn_append_replicate past _ k
  have hlinked := (hrun.linked hG hnever k).congr fun j _ => hcol j
  rw [hcol]
  refine ⟨hlinked.toTiedColumn.imp fun token htoken => ?_,
    fun {j p b token} hj htoken hp htakes => ?_⟩
  · rw [List.getElem?_append_left (List.getElem?_eq_some_iff.mp htoken).1]
    exact htoken
  · refine hlinked.scanned hj ?_ hp htakes
    rw [hcol] at hp
    exact hrun.token_of_takes hG hstuck (mem_states.mpr ⟨p, hp, rfl⟩) htoken htakes

/-! ## Every state has a derivation -/

/-- A state of a column with a best derivation. -/
def HasBest (columns : List (Column P W)) (k : Nat) (s : State P W) : Prop :=
  ∃ b, (pastColumn columns k).best? s = some b

theorem Linked.hasBest_of_dot_eq (h : Linked G goal tokens columns)
    (hsat : Saturated G goal tokens columns) {k : Nat} {s : State P W} (hs : s ∈ statesAt columns k)
    (hdot : s.dot = 0) : HasBest columns k s := by
  obtain ⟨c, hc, rfl⟩ := mem_states.mp hs
  obtain ⟨b, hb, _⟩ := (h k).begins hc hdot
  exact ⟨b, by rw [Column.best?_of_mem (hsat.shaped k).distinct hc, hb]⟩

/-- A complete state with a derivation hands one on to what waits for it. -/
theorem Linked.hasBest_complete (h : Linked G goal tokens columns)
    (hsat : Saturated G goal tokens columns) {k : Nat} {done s : State P W}
    (hopen : IsOpen k (pastColumn columns k) done) (hdone : HasBest columns k done)
    (hs : s ∈ statesAt columns done.origin) (hnext : s.next? = some done.rule.lhs)
    (hbest : HasBest columns done.origin s) : HasBest columns k (s.advance k) := by
  obtain ⟨p, hp, rfl⟩ := mem_states.mp hs
  obtain ⟨d, hd⟩ := hdone
  obtain ⟨b, hb⟩ := hbest
  rw [Column.best?_of_mem (hsat.shaped _).distinct hp] at hb
  have hwaiting : p ∈ (pastColumn columns done.origin).waiting done.rule.lhs := by
    refine List.mem_filter.mpr ⟨hp, ?_⟩
    rw [hnext]
    exact BEq.rfl
  obtain ⟨t, ht, _⟩ := (h k).settled hopen d hd p hwaiting b hb
  exact ⟨t, ht⟩

/-- A chain of unit rules is completed one rule at a time: if something waits for its beginning, a
derivation of its end is handed up to a complete state of its beginning. -/
theorem Linked.exists_complete_of_unitStep (hG : G.Compiled solver)
    (h : Linked G goal tokens columns) (hsat : Saturated G goal tokens columns) {k : Nat}
    {done : State P W} (hopen : IsOpen k (pastColumn columns k) done)
    (hdone : HasBest columns k done) {x : Category}
    (hchain : ReflTransGen G.UnitStep x done.rule.lhs) {s : State P W}
    (hs : s ∈ statesAt columns done.origin) (hnext : s.next? = some x) :
    ∃ e, IsOpen k (pastColumn columns k) e ∧ e.origin = done.origin ∧ e.rule.lhs = x ∧
      HasBest columns k e := by
  induction hchain using ReflTransGen.head_induction_on generalizing s with
  | refl => exact ⟨done, hopen, rfl, rfl, hdone⟩
  | @head x y hstep _ ih =>
    obtain ⟨q, hq, hrhs, _⟩ := hstep
    have hpredicted := hsat.predict hs hnext hq
    have hwaits : (State.predicted q.rule done.origin).next? = some y := by
      rw [State.next?, State.predicted, hrhs]
      rfl
    obtain ⟨e, heopen, heorigin, helhs, hebest⟩ := ih hpredicted hwaits
    rw [← helhs] at hwaits
    rw [← heorigin] at hpredicted hwaits
    have hbest := h.hasBest_complete hsat heopen hebest hpredicted hwaits
      (h.hasBest_of_dot_eq hsat hpredicted rfl)
    have hmem := hsat.complete heopen.1 heopen.2.1 heopen.2.2 hpredicted hwaits
    refine ⟨_, ⟨hmem, ?_, heopen.2.2⟩, heorigin, (hG.isSound hq).lhs, hbest⟩
    simp [State.isComplete, State.advance, State.predicted, hrhs]

/-- **Every state of a chart has a best derivation.** -/
theorem Linked.found (hG : G.Compiled solver) (h : Linked G goal tokens columns)
    (hsat : Saturated G goal tokens columns) {k : Nat} {s : State P W}
    (hs : s ∈ statesAt columns k) : HasBest columns k s := by
  -- a state that has found nothing has its derivation from the start, wherever it came from
  refine hsat.induction (motive := fun k s => s ∈ statesAt columns k → HasBest columns k s) hG
    (fun hmem => h.hasBest_of_dot_eq hsat hmem rfl)
    (fun _ _ hmem => h.hasBest_of_dot_eq hsat hmem rfl)
    (fun _ _ _ _ _ hmem => h.hasBest_of_dot_eq hsat hmem rfl) ?_ ?_ hs hs
  · intro k p token hp hbest htoken htakes _
    obtain ⟨b, hb⟩ := hbest hp
    obtain ⟨c, hc, rfl⟩ := mem_states.mp hp
    rw [Column.best?_of_mem (hsat.shaped k).distinct hc] at hb
    obtain ⟨t, ht, _⟩ := (h (k + 1)).scanned rfl htoken hc htakes hb
    exact ⟨t, ht⟩
  · intro k d p x hd hbest hpending hp hbest' hx hchain _
    obtain ⟨hcomplete, hlt, _⟩ := origin_lt_of_isPending hpending
    obtain ⟨e, heopen, heorigin, rfl, hebest⟩ :=
      h.exists_complete_of_unitStep hG hsat ⟨hd, hcomplete, hlt⟩ (hbest hd) hchain hp hx
    have hbest' := hbest' hp
    rw [← heorigin] at hp hbest'
    exact h.hasBest_complete hsat heopen hebest hp hx hbest'

end StochasticGrammar.Parser
