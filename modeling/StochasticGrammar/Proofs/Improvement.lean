import StochasticGrammar.Proofs.Relaxation
import StochasticGrammar.Proofs.Stages

/-!
# Completing best derivations

Best derivations are completed by relaxation: a complete state offers every cell that waits for it a
derivation, and a state whose derivation has improved makes its offers again in the next round. What
is needed of the arithmetic is only that scores are ordered and that the score of a rule never
raises the score it is multiplied with; then a chain of unit rules cannot improve itself, and the
search is over when every state has made its last offer.

> `Searching`: what every offer keeps, whatever the rounds.

> `Ends.of_round`: rounds take the states of one queue, in its order.

> `improved_completeBest`: the best derivations that are left point to each other without a cycle,
> and no state has a better one to offer.
-/

namespace StochasticGrammar.Parser

variable {P W : Type}

/-! ## Scores that come up -/

section Scores

variable [Probability P]

/-- The scores that best derivations can have. -/
inductive Attainable (G : Grammar P W) : W → Prop
  | one : Attainable G G.algebra.one
  | production {x : Category} {q : Production P W} (hq : q ∈ G.productionsOf x) :
      Attainable G q.best
  | empty {x : Category} (hx : G.isNullable x = true) :
      Attainable G (G.algebra.ofProbability (G.bestEmptyProbability x))
  | mul {a b : W} (ha : Attainable G a) (hb : Attainable G b) : Attainable G (G.algebra.mul a b)

/-- Whether a score is strictly worse than another one. -/
def Worse (G : Grammar P W) (a b : W) : Prop :=
  G.algebra.lt a b = true

/-- Scores are ordered, and multiplying by the weight of a rule never increases a score. -/
structure NeverRaises (G : Grammar P W) : Prop where
  order : WeakOrder (Attainable G) (Worse G)
  not_raised : ∀ {x : Category} {q : Production P W} {a : W}, q ∈ G.productionsOf x →
    Attainable G a → ¬ Worse G a (G.algebra.mul q.best a)

end Scores

variable [DecidableEq P] [DecidableEq W] [Probability P]

/-! ## Entries -/

/-- How the best derivation of a state came about: over a token that was read, or over a complete
state that had a score then which it has at least now. -/
inductive Entry (G : Grammar P W) (past : List (Column P W)) (k : Nat) (read : Payload → Prop)
    (col : Column P W) : State P W → Backpointer P W → Prop
  | scanned {j : Nat} {p : Cell P W} {b : Backpointer P W} {token : Payload} (hk : k = j + 1)
      (hp : p ∈ pastColumn past j) (hb : p.best = some b) (hread : read token)
      (htakes : Takes G token p.state) :
      Entry G past k read col (p.state.advance k)
        ⟨.scanned, b.score, some p.state, none, some token⟩
  | completed {p : Cell P W} {b d : Backpointer P W} {done : State P W} {w : W}
      (hopen : IsOpen k col done) (hp : p ∈ (pastColumn past done.origin).waiting done.rule.lhs)
      (hb : p.best = some b) (hd : col.best? done = some d) (hw : Attainable G w)
      (hle : ¬ Worse G d.score w) :
      Entry G past k read col (p.state.advance k)
        ⟨.completed, G.algebra.mul b.score w, some p.state, some done, none⟩

open Classical in
/-- The score of a state of the column. -/
noncomputable def label (col : Column P W) (s : State P W) : Option W :=
  if s ∈ col.states then (col.best? s).map (·.score) else none

/-- The best derivation of a state of the column leads over another state of the column. -/
def points (col : Column P W) (s done : State P W) : Prop :=
  ∃ c ∈ col, c.state = s ∧ ∃ b, c.best = some b ∧ b.completed = some done

/-- Derivations lead from smaller to greater origins; the start symbol comes before all. -/
def level (s : State P W) : Nat :=
  if s.rule.lhs = .start then 0 else s.origin + 1

/-- All scores of a column are ones that come up. -/
def AllAttainable (G : Grammar P W) (col : Column P W) : Prop :=
  ∀ s b, col.best? s = some b → Attainable G b.score

/-- No best derivation of the second column is worse than that of the first one. -/
def NoWorse (G : Grammar P W) (col col' : Column P W) : Prop :=
  ∀ s b, col.best? s = some b → ∃ b', col'.best? s = some b' ∧ ¬ Worse G b'.score b.score

/-- A complete state has no better derivation to offer. -/
def Settled (G : Grammar P W) (past : List (Column P W)) (k : Nat) (col : Column P W)
    (done : State P W) : Prop :=
  ∀ d, col.best? done = some d → ∀ p ∈ (pastColumn past done.origin).waiting done.rule.lhs,
    ∀ b, p.best = some b → ∃ t, col.best? (p.state.advance k) = some t ∧
      ¬ Worse G t.score (G.algebra.mul b.score d.score)

/-- What the columns before have to provide. -/
structure PastReady (G : Grammar P W) (past : List (Column P W)) : Prop where
  attainable : ∀ {j p b}, p ∈ pastColumn past j → p.best = some b → Attainable G b.score
  /-- A predicted state counts with the best score of its production. -/
  predicted : ∀ {j p b}, p ∈ pastColumn past j → p.state.dot = 0 → p.state.rule.lhs ≠ .start →
    p.best = some b → ∃ x, ∃ q ∈ G.productionsOf x, b.score = q.best

/-- What the search starts from. -/
structure SearchBase (G : Grammar P W) (goal : Category) (past : List (Column P W)) (k : Nat)
    (base : Column P W) : Prop where
  goal_ne : goal ≠ .start
  past_shaped : PastShaped G goal past
  past_ready : PastReady G past
  shaped : Shaped G goal k base
  closed : Closed past k base
  attainable : AllAttainable G base

variable {solver : Solver P} {G : Grammar P W} {goal : Category}
  {past : List (Column P W)} {k : Nat}
  {read : Payload → Prop} {base col : Column P W}

omit [DecidableEq P] [DecidableEq W] [Probability P] in
theorem isOpen_of_core_eq {col' : Column P W} (h : col.map Cell.core = col'.map Cell.core)
    {s : State P W} (hs : IsOpen k col s) : IsOpen k col' s := by
  unfold IsOpen at hs ⊢
  rwa [← states_eq_of_core_eq h]

theorem Entry.mono {col' : Column P W} (hord : WeakOrder (Attainable G) (Worse G))
    (hcore : col.map Cell.core = col'.map Cell.core) (hle : NoWorse G col col')
    (hatt : AllAttainable G col) (hatt' : AllAttainable G col') {s : State P W}
    {b : Backpointer P W} (h : Entry G past k read col s b) : Entry G past k read col' s b := by
  cases h with
  | scanned hk hp hb hread htakes => exact .scanned hk hp hb hread htakes
  | completed hopen hp hb hd hw hnot =>
    obtain ⟨d', hd', hnot'⟩ := hle _ _ hd
    exact .completed (isOpen_of_core_eq hcore hopen) hp hb hd' hw
      (hord.trans (hatt' _ _ hd') (hatt _ _ hd) hw hnot' hnot)

theorem NoWorse.trans {col₁ col₂ col₃ : Column P W} (hord : WeakOrder (Attainable G) (Worse G))
    (hatt₁ : AllAttainable G col₁) (hatt₂ : AllAttainable G col₂) (hatt₃ : AllAttainable G col₃)
    (h₁ : NoWorse G col₁ col₂) (h₂ : NoWorse G col₂ col₃) : NoWorse G col₁ col₃ := by
  intro s b hb
  obtain ⟨b', hb', hnot⟩ := h₁ s b hb
  obtain ⟨b'', hb'', hnot'⟩ := h₂ s b' hb'
  exact ⟨b'', hb'', hord.trans (hatt₃ s b'' hb'') (hatt₂ s b' hb') (hatt₁ s b hb) hnot' hnot⟩

/-! ## The search -/

/-- What every offer keeps. The states of `todo` still make their offers in this round, those of
`next` in the next one; `stamp` says in which round the best derivation of a state was found. -/
structure Searching (G : Grammar P W) (past : List (Column P W)) (k : Nat) (read : Payload → Prop)
    (base : Column P W) (n : Nat) (stamp : State P W → Nat) (todo next : List (State P W))
    (col : Column P W) : Prop where
  core : col.map Cell.core = base.map Cell.core
  entries : ∀ {c b}, c ∈ col → c.best = some b → Entry G past k read col c.state b
  attainable : AllAttainable G col
  relaxed : Relaxed (Attainable G) (Worse G) level (label col) (points col)
  noWorse : NoWorse G base col
  stamped : Stamped 0 (points col) stamp
  stamp_le : ∀ s, stamp s ≤ n
  todo_stamp : ∀ s ∈ todo, n ≤ stamp s + 1
  next_stamp : ∀ s ∈ next, n ≤ stamp s
  todo_open : ∀ s ∈ todo, IsOpen k base s
  next_open : ∀ s ∈ next, IsOpen k base s
  settled : ∀ done, IsOpen k base done → done ∈ todo ∨ done ∈ next ∨ Settled G past k col done

/-- A better derivation takes the place of the old one. -/
def replaced (A : ScoreAlgebra P W) (s : State P W) (b : Backpointer P W) (col : Column P W) :
    Column P W :=
  col.alter A s fun c => { c with best := some b }

omit [Probability P] in
theorem best?_replaced (A : ScoreAlgebra P W) (s : State P W) (b : Backpointer P W)
    (col : Column P W) (t : State P W) :
    (replaced A s b col).best? t = if s == t then some b else col.best? t := by
  have hf : ∀ c : Cell P W, ({ c with best := some b } : Cell P W).state = c.state := fun c => rfl
  unfold replaced Column.best?
  rw [Column.find?_alter A hf]
  split <;> rfl

omit [Probability P] in
theorem core_replaced (A : ScoreAlgebra P W) {s : State P W} (b : Backpointer P W)
    (hs : col.contains s = true) : (replaced A s b col).map Cell.core = col.map Cell.core := by
  have hg : ∀ c : Cell P W, Cell.core { c with best := some b } = Cell.core c := fun c => rfl
  exact Column.map_alter A hg hs

omit [Probability P] in
/-- After an offer the column is as it was, and the offer no better than what is there, or the offer
was better and has been taken. -/
theorem alter_offer_cases (A : ScoreAlgebra P W) {s : State P W} (b : Backpointer P W)
    (hs : col.contains s = true) :
    ((col.find? s).all (Cell.isImprovedBy A b) = false ∧ col.alter A s (Cell.offer A b) = col ∧
        ∃ t, col.best? s = some t ∧ ¬ A.lt t.score b.score = true) ∨
      ((col.find? s).all (Cell.isImprovedBy A b) = true ∧
        col.alter A s (Cell.offer A b) = replaced A s b col ∧
        ∀ t, col.best? s = some t → A.lt t.score b.score = true) := by
  induction col with
  | nil => simp [Column.contains, Column.find?] at hs
  | cons c col ih =>
    by_cases hc : (c.state == s) = true
    · have hfind : Column.find? (c :: col) s = some c := by rw [Column.find?_cons, if_pos hc]
      unfold replaced Column.best?
      rw [hfind, Column.alter, Column.alter, if_pos hc, if_pos hc, Option.all_some,
        Option.bind_some]
      unfold Cell.offer Cell.isImprovedBy
      cases hbest : c.best with
      | none =>
        refine Or.inr ⟨rfl, by simp, ?_⟩
        intro t ht
        cases ht
      | some t =>
        rw [Option.all_some, ScoreAlgebra.isBetter]
        cases hlt : A.lt t.score b.score with
        | false => exact Or.inl ⟨rfl, by simp, t, rfl, by simp [hlt]⟩
        | true =>
          refine Or.inr ⟨rfl, by simp, ?_⟩
          intro t' ht'
          cases ht'
          exact hlt
    · have hcol : Column.contains col s = true := by
        unfold Column.contains at hs
        rwa [Column.find?_cons, if_neg hc] at hs
      have hfind : Column.find? (c :: col) s = Column.find? col s := by
        rw [Column.find?_cons, if_neg hc]
      unfold replaced Column.best? at ih ⊢
      rw [hfind, Column.alter, Column.alter, if_neg hc, if_neg hc]
      rcases ih hcol with ⟨hall, heq, hbest⟩ | ⟨hall, heq, hbest⟩
      · exact Or.inl ⟨hall, by rw [heq], hbest⟩
      · exact Or.inr ⟨hall, by rw [heq], hbest⟩

/-! ## One better derivation -/

section Better

variable {n : Nat} {stamp : State P W → Nat} {todo next : List (State P W)}

omit [Probability P] in
theorem best?_of_mem_states (hd : col.Distinct) {s : State P W} (hs : s ∈ col.states) :
    ∃ c ∈ col, c.state = s ∧ col.best? s = c.best := by
  obtain ⟨c, hc, rfl⟩ := List.mem_map.mp hs
  exact ⟨c, hc, rfl, Column.best?_of_mem hd hc⟩

omit [Probability P] in
theorem label_eq {s : State P W} (hs : s ∈ col.states) :
    label col s = (col.best? s).map (·.score) := by
  unfold label
  exact if_pos hs

section Replacing

variable {s : State P W} {b : Backpointer P W}

theorem states_replaced (hG : G.Compiled solver) (hshaped : Shaped G goal k col)
    (hs : s ∈ col.states) (b : Backpointer P W) :
    Column.states (replaced G.algebra s b col) = col.states := by
  obtain ⟨c, hc, rfl⟩ := List.mem_map.mp hs
  exact states_eq_of_core_eq (core_replaced G.algebra b
    ((hshaped.contains_iff_mem_states hG (hshaped.fits c hc).rule).mpr hs))

theorem best?_replaced_of_ne (hG : G.Compiled solver) (hshaped : Shaped G goal k col)
    (hs : s ∈ col.states) (b : Backpointer P W) {t : State P W} (ht : t ∈ col.states)
    (hts : t ≠ s) :
    (replaced G.algebra s b col).best? t = col.best? t := by
  obtain ⟨c, hc, rfl⟩ := List.mem_map.mp hs
  obtain ⟨c', hc', rfl⟩ := List.mem_map.mp ht
  have hbeq := State.beq_iff_eq (discrete_chartRule hG) (hshaped.fits c hc).rule
    (hshaped.fits c' hc').rule
  rw [best?_replaced, if_neg fun h => hts (hbeq.mp h).symm]

/-- The cells of the column are the ones it had, but for the one that got the derivation. -/
theorem mem_replaced (hG : G.Compiled solver) (hshaped : Shaped G goal k col) (hs : s ∈ col.states)
    {c : Cell P W} : c ∈ replaced G.algebra s b col ↔
      (c ∈ col ∧ c.state ≠ s) ∨ c = { Column.cell G.algebra col s with best := some b } := by
  obtain ⟨cs, hcs, rfl⟩ := List.mem_map.mp hs
  have hbeq : ∀ c ∈ col, (c.state == cs.state) = true ↔ c.state = cs.state := fun c hc =>
    State.beq_iff_eq (discrete_chartRule hG) (hshaped.fits c hc).rule (hshaped.fits cs hcs).rule
  constructor
  · intro hc
    refine (Column.mem_alter G.algebra hshaped.distinct hc).imp_left ?_
    rintro ⟨hc, hne⟩
    exact ⟨hc, mt (hbeq c hc).mpr hne⟩
  · rintro (⟨hc, hne⟩ | rfl)
    · exact Column.mem_alter_of_mem G.algebra hc (mt (hbeq c hc).mp hne)
    · exact Column.altered_mem G.algebra col

omit [Probability P] in
theorem cell_state {A : ScoreAlgebra P W} (hd : col.Distinct) (hs : s ∈ col.states) :
    (Column.cell A col s).state = s := by
  obtain ⟨c, hc, rfl⟩ := List.mem_map.mp hs
  rw [Column.cell_of_mem A hd hc]

/-- The pointer of the state now leads over the phrase of the new derivation. -/
theorem points_replaced (hG : G.Compiled solver) (hshaped : Shaped G goal k col)
    (hs : s ∈ col.states) {done : State P W} (hb : b.completed = some done) (x y : State P W) :
    points (replaced G.algebra s b col) x y ↔ (x = s ∧ y = done) ∨ (x ≠ s ∧ points col x y) := by
  have hstate : (Column.cell G.algebra col s).state = s := cell_state hshaped.distinct hs
  constructor
  · rintro ⟨c, hc, rfl, b', hb', hy⟩
    rcases (mem_replaced hG hshaped hs).mp hc with ⟨hc, hne⟩ | rfl
    · exact Or.inr ⟨hne, c, hc, rfl, b', hb', hy⟩
    · cases hb'
      rw [hb] at hy
      exact Or.inl ⟨hstate, (Option.some.inj hy).symm⟩
  · rintro (⟨rfl, rfl⟩ | ⟨hne, c, hc, rfl, hrest⟩)
    · exact ⟨_, (mem_replaced hG hshaped hs).mpr (Or.inr rfl), hstate, b, rfl, hb⟩
    · exact ⟨c, (mem_replaced hG hshaped hs).mpr (Or.inl ⟨hc, hne⟩), rfl, hrest⟩

/-- What a taken offer changes about labels and pointers. -/
theorem relaxed_replaced (hG : G.Compiled solver) (hord : WeakOrder (Attainable G) (Worse G))
    (hshaped : Shaped G goal k col)
    (h : Relaxed (Attainable G) (Worse G) level (label col) (points col)) {done : State P W}
    (hs : s ∈ col.states) (hdone : done ∈ col.states) {d : Backpointer P W}
    (hb : b.completed = some done) (hatt : Attainable G b.score) (hd : col.best? done = some d)
    (hlevel : level s ≤ level done) (hle : level s = level done → ¬ Worse G d.score b.score)
    (hbetter : ∀ t, col.best? s = some t → Worse G t.score b.score) :
    Relaxed (Attainable G) (Worse G) level (label (replaced G.algebra s b col))
      (points (replaced G.algebra s b col)) := by
  have hstates := states_replaced hG hshaped hs b
  refine h.relax (a := s) hord (· = done) hatt ?_ ?_
    (fun x y => (points_replaced hG hshaped hs hb x y).mp) ?_ ?_
  · rw [label_eq (by rw [hstates]; exact hs), best?_replaced, if_pos BEq.rfl]
    rfl
  · intro t ht
    by_cases hmem : t ∈ col.states
    · rw [label_eq (by rw [hstates]; exact hmem), label_eq hmem,
        best?_replaced_of_ne hG hshaped hs b hmem ht]
    · unfold label
      rw [hstates, if_neg hmem, if_neg hmem]
  · rintro y rfl
    exact ⟨d.score, by rw [label_eq hdone, hd]; rfl, hlevel, hle⟩
  · intro old hold
    rw [label_eq hs] at hold
    obtain ⟨t, ht, rfl⟩ := Option.map_eq_some_iff.mp hold
    exact hbetter t ht

theorem noWorse_replaced (hord : WeakOrder (Attainable G) (Worse G)) (hatt : Attainable G b.score)
    (hcol : AllAttainable G col) (hbetter : ∀ t, col.best? s = some t → Worse G t.score b.score) :
    NoWorse G col (replaced G.algebra s b col) := by
  intro t b' hb'
  rw [best?_replaced]
  by_cases hst : (s == t) = true
  · rw [if_pos hst]
    have hs : col.best? s = some b' := by
      unfold Column.best? at hb' ⊢
      rw [Column.find?_congr col hst]
      exact hb'
    exact ⟨b, rfl, hord.asymm (hcol s b' hs) hatt (hbetter b' hs)⟩
  · rw [if_neg hst]
    exact ⟨b', hb', hord.irrefl (hcol t b' hb')⟩

theorem allAttainable_replaced (hatt : Attainable G b.score) (hcol : AllAttainable G col) :
    AllAttainable G (replaced G.algebra s b col) := by
  intro t b' hb'
  rw [best?_replaced] at hb'
  split at hb'
  · cases hb'
    exact hatt
  · exact hcol t b' hb'

/-- The new derivation came about like the others, and these keep what they lead over. -/
theorem entry_of_mem_replaced (hG : G.Compiled solver) (hord : WeakOrder (Attainable G) (Worse G))
    (hshaped : Shaped G goal k col) (hs : s ∈ col.states) (hatt : Attainable G b.score)
    (hcol : AllAttainable G col) (hbetter : ∀ t, col.best? s = some t → Worse G t.score b.score)
    (h : ∀ {c b}, c ∈ col → c.best = some b → Entry G past k read col c.state b)
    (hnew : Entry G past k read col s b) {c : Cell P W} {b' : Backpointer P W}
    (hc : c ∈ replaced G.algebra s b col) (hb' : c.best = some b') :
    Entry G past k read (replaced G.algebra s b col) c.state b' := by
  have hrule : ChartRule G goal s.rule := by
    obtain ⟨cs, hcs, rfl⟩ := List.mem_map.mp hs
    exact (hshaped.fits cs hcs).rule
  have hcore := core_replaced G.algebra b ((hshaped.contains_iff_mem_states hG hrule).mpr hs)
  have hmono :=
      fun {t : State P W} {b'' : Backpointer P W} (hentry : Entry G past k read col t b'') =>
    hentry.mono hord hcore.symm (noWorse_replaced hord hatt hcol hbetter) hcol
      (allAttainable_replaced hatt hcol)
  rcases (mem_replaced hG hshaped hs).mp hc with ⟨hc, _⟩ | rfl
  · exact hmono (h hc hb')
  · cases hb'
    rw [show ({ Column.cell G.algebra col s with best := some b } : Cell P W).state = s from
      cell_state hshaped.distinct hs]
    exact hmono hnew

end Replacing

theorem Settled.mono {col' : Column P W} (hord : WeakOrder (Attainable G) (Worse G))
    (hready : PastReady G past) (hle : NoWorse G col col') (hatt : AllAttainable G col)
    (hatt' : AllAttainable G col') {done : State P W} (hsame : col'.best? done = col.best? done)
    (h : Settled G past k col done) : Settled G past k col' done := by
  intro d hd p hp b hb
  rw [hsame] at hd
  obtain ⟨t, ht, hnot⟩ := h d hd p hp b hb
  obtain ⟨t', ht', hnot'⟩ := hle _ _ ht
  have hmul := Attainable.mul (hready.attainable (List.mem_filter.mp hp).1 hb) (hatt _ _ hd)
  exact ⟨t', ht', hord.trans (hatt' _ _ ht') (hatt _ _ ht) hmul hnot' hnot⟩

/-- A complete state offers a cell that waits for it a derivation. -/
structure Offers (G : Grammar P W) (goal : Category) (past : List (Column P W)) (k : Nat)
    (base : Column P W) (done : State P W) (p : Cell P W) (b : Backpointer P W) : Prop where
  isOpen : IsOpen k base done
  waiting : p ∈ (pastColumn past done.origin).waiting done.rule.lhs
  best : p.best = some b
  lhs_ne : done.rule.lhs ≠ .start
  mem : p ∈ pastColumn past done.origin
  fits : Fits G goal done.origin p.state
  fits' : Fits G goal k (p.state.advance k)
  mem' : p.state.advance k ∈ base.states

theorem offers_of_waiting (hG : G.Compiled solver) (hs : SearchBase G goal past k base)
    {done : State P W} (hopen : IsOpen k base done) {p : Cell P W}
    (hp : p ∈ (pastColumn past done.origin).waiting done.rule.lhs) {b : Backpointer P W}
    (hb : p.best = some b) : Offers G goal past k base done p b := by
  obtain ⟨c, hc, hcd⟩ := List.mem_map.mp hopen.1
  have hfits : Fits G goal k done := hcd ▸ hs.shaped.fits c hc
  obtain ⟨hnames, hmem, hnext⟩ :=
    mem_names_of_waiting hG hs.goal_ne (hs.past_shaped done.origin) hfits hp
  have hpfits := (hs.past_shaped done.origin).fits p hmem
  exact ⟨hopen, hp, hb, hG.ne_start_of_mem_names hnames, hmem, hpfits,
    hpfits.advance hnext hopen.2.2, hs.closed done hopen p hp⟩

omit [DecidableEq P] [DecidableEq W] in
/-- An offer leads from a lower level to a higher one, or it completes a unit rule. -/
theorem Offers.level_le {done : State P W} {p : Cell P W} {b : Backpointer P W}
    (h : Offers G goal past k base done p b) : level (p.state.advance k) ≤ level done := by
  unfold level
  rw [if_neg h.lhs_ne]
  split
  · exact Nat.zero_le _
  · exact Nat.succ_le_succ h.fits.origin_le

omit [DecidableEq P] [DecidableEq W] in
theorem Offers.not_raised (hnever : NeverRaises G) (hready : PastReady G past) {done : State P W}
    {p : Cell P W} {b : Backpointer P W} (h : Offers G goal past k base done p b)
    (hlevel : level (p.state.advance k) = level done) {w : W} (hw : Attainable G w) :
    ¬ Worse G w (G.algebra.mul b.score w) := by
  unfold level at hlevel
  rw [if_neg h.lhs_ne] at hlevel
  split at hlevel
  · cases hlevel
  · next hlhs =>
    have horigin : p.state.origin = done.origin := Nat.succ.inj hlevel
    have hdot : p.state.dot = 0 := by
      by_contra hne
      have := h.fits.origin_lt (Nat.pos_of_ne_zero hne)
      omega
    obtain ⟨x, q, hq, hscore⟩ := hready.predicted h.mem hdot hlhs h.best
    rw [hscore]
    exact hnever.not_raised hq hw

omit [DecidableEq P] [DecidableEq W] [Probability P] in
/-- A complete state that got a better derivation is queued. -/
theorem mem_queue {s t : State P W} : t ∈ (if s.isComplete then next ++ [s] else next) ↔
    t ∈ next ∨ (t = s ∧ s.isComplete = true) := by
  split
  · next hcomplete => simp [hcomplete]
  · next hopen => simp [hopen]

theorem Searching.shaped (h : Searching G past k read base n stamp todo next col)
    (hs : SearchBase G goal past k base) : Shaped G goal k col :=
  shaped_of_core_eq h.core.symm hs.shaped

theorem Searching.states_eq (h : Searching G past k read base n stamp todo next col) :
    col.states = base.states :=
  states_eq_of_core_eq h.core

/-- **A better derivation keeps the search going.** The state that got it is stamped with this round
and, if it is complete, makes its offers again in the next one. -/
theorem Searching.replace (hG : G.Compiled solver) (hnever : NeverRaises G)
    (hs : SearchBase G goal past k base)
    (h : Searching G past k read base n stamp todo next col) {done : State P W} {p : Cell P W}
    {b d : Backpointer P W} (hoffers : Offers G goal past k base done p b)
    (hstamp : n ≤ stamp done + 1) (hd : col.best? done = some d) {w : W} (hw : Attainable G w)
    (hle : ¬ Worse G d.score w) {cand : Backpointer P W}
    (hcand : cand = ⟨.completed, G.algebra.mul b.score w, some p.state, some done, none⟩)
    (hbetter : ∀ t, col.best? (p.state.advance k) = some t → Worse G t.score cand.score) :
    ∃ stamp', Searching G past k read base n stamp' todo
      (if (p.state.advance k).isComplete then next ++ [p.state.advance k] else next)
      (replaced G.algebra (p.state.advance k) cand col) := by
  classical
  have hord := hnever.order
  have hshaped := h.shaped hs
  have hmem : p.state.advance k ∈ col.states := h.states_eq ▸ hoffers.mem'
  have hdone : done ∈ col.states := h.states_eq ▸ hoffers.isOpen.1
  have hopen : IsOpen k col done := isOpen_of_core_eq h.core.symm hoffers.isOpen
  have hatt : Attainable G cand.score := by
    rw [hcand]
    exact .mul (hs.past_ready.attainable hoffers.mem hoffers.best) hw
  have hcompleted : cand.completed = some done := by rw [hcand]
  have hentry : Entry G past k read col (p.state.advance k) cand := by
    rw [hcand]
    exact .completed hopen hoffers.waiting hoffers.best hd hw hle
  have hlevel : level (p.state.advance k) = level done → ¬ Worse G d.score cand.score := by
    intro heq
    have hnot := hoffers.not_raised hnever hs.past_ready heq hw
    rw [hcand] at hatt ⊢
    exact hord.trans (h.attainable _ _ hd) hw hatt hle hnot
  have hcore := core_replaced G.algebra cand
    ((hshaped.contains_iff_mem_states hG hoffers.fits'.rule).mpr hmem)
  have hatt' := allAttainable_replaced (s := p.state.advance k) hatt h.attainable
  have hnoWorse := noWorse_replaced hord hatt h.attainable hbetter
  have hpoints := points_replaced hG hshaped hmem hcompleted
  -- only the stamp of the state itself changes, and to the latest there is
  have hupdate := fun q : State P W → Nat → Prop =>
    (Function.forall_update_iff stamp (a := p.state.advance k) (b := n) (p := q)).mpr
  refine ⟨Function.update stamp (p.state.advance k) n, hcore.trans h.core,
    entry_of_mem_replaced hG hord hshaped hmem hatt h.attainable hbetter h.entries hentry, hatt',
    relaxed_replaced hG hord hshaped h.relaxed hmem hdone hcompleted hatt hd hoffers.level_le hlevel
      hbetter,
    h.noWorse.trans hord hs.attainable h.attainable hatt' hnoWorse, ?_,
    hupdate (fun _ m => m ≤ n) ⟨Nat.le_refl n, fun t _ => h.stamp_le t⟩,
    hupdate (fun t m => t ∈ todo → n ≤ m + 1) ⟨fun _ => Nat.le_succ n, fun t _ => h.todo_stamp t⟩,
    hupdate (fun t m => t ∈ _ → n ≤ m) ⟨fun _ => Nat.le_refl n, fun t hne ht => ?_⟩,
    h.todo_open, fun t ht => ?_, fun done' hopen' => ?_⟩
  · -- the state points to the one that made the offer, which this round or the one before stamped
    refine h.stamped.relax (a := p.state.advance k) (Function.update_self _ _ _) (h.stamp_le _)
      (fun x hx => Function.update_of_ne hx _ _)
      (fun x y hx hxy => (hpoints x y).mpr (Or.inr ⟨hx, hxy⟩))
      (Or.inr ⟨done, (hpoints _ _).mpr (Or.inl ⟨rfl, rfl⟩), ?_⟩)
    by_cases hds : done = p.state.advance k
    · rw [hds, Function.update_self]
      exact Nat.le_succ n
    · rw [Function.update_of_ne hds]
      exact hstamp
  · exact h.next_stamp t ((mem_queue.mp ht).resolve_right fun hself => hne hself.1)
  · rcases mem_queue.mp ht with ht | ⟨rfl, hcomplete⟩
    · exact h.next_open t ht
    · exact ⟨hoffers.mem', hcomplete, hoffers.fits'.origin_lt (Nat.succ_pos _)⟩
  · by_cases hds : done' = p.state.advance k
    · exact Or.inr (Or.inl (mem_queue.mpr (Or.inr ⟨hds, hds ▸ hopen'.2.1⟩)))
    · have hsame := best?_replaced_of_ne hG hshaped hmem cand (h.states_eq ▸ hopen'.1) hds
      refine (h.settled done' hopen').imp_right (Or.imp (fun hin => mem_queue.mpr (Or.inl hin)) ?_)
      exact fun hsettled => hsettled.mono hord hs.past_ready hnoWorse h.attainable hatt' hsame

/-! ## Rounds and the queue -/

/-- States are taken from the head of a queue one at a time, and those that get a better derivation
meanwhile join its end; when none is left, the column is this one. -/
inductive Ends (A : ScoreAlgebra P W) (past : List (Column P W)) (k : Nat) :
    Improvement P W → Column P W → Prop
  | done {col : Column P W} : Ends A past k ⟨col, []⟩ col
  | take {col out : Column P W} {s : State P W} {rest : List (State P W)}
      (h : Ends A past k (Parser.improveOver A past k ⟨col, rest⟩ s) out) :
      Ends A past k ⟨col, s :: rest⟩ out

/-- The improvement with a queue in front of its own. -/
def behind (queue : List (State P W)) (work : Improvement P W) : Improvement P W :=
  ⟨work.column, queue ++ work.improved⟩

omit [Probability P] in
theorem offerOver_behind (A : ScoreAlgebra P W) (k : Nat) (done : State P W) (score : W)
    (queue : List (State P W)) (work : Improvement P W) (cell : Cell P W) :
    Parser.offerOver A k done score (behind queue work) cell
      = behind queue (Parser.offerOver A k done score work cell) := by
  unfold Parser.offerOver behind
  cases cell.best with
  | none => rfl
  | some b =>
    dsimp only
    split
    · rw [List.append_assoc]
    · rfl

omit [Probability P] in
theorem improveOver_behind (A : ScoreAlgebra P W) (past : List (Column P W)) (k : Nat)
    (queue : List (State P W)) (work : Improvement P W) (done : State P W) :
    Parser.improveOver A past k (behind queue work) done
      = behind queue (Parser.improveOver A past k work done) := by
  have hcolumn : (behind queue work).column = work.column := rfl
  unfold Parser.improveOver
  rw [hcolumn]
  cases work.column.best? done with
  | none => rfl
  | some b => exact List.foldl_hom (behind queue) fun work cell =>
      offerOver_behind A k done b.score queue work cell

omit [Probability P] in
/-- A round takes the states of its queue one at a time. -/
theorem Ends.of_round {A : ScoreAlgebra P W} {past : List (Column P W)} {k : Nat}
    {queue : List (State P W)} {work : Improvement P W} {out : Column P W}
    (h : Ends A past k (queue.foldl (Parser.improveOver A past k) work) out) :
    Ends A past k (behind queue work) out := by
  induction queue generalizing work with
  | nil => exact h
  | cons s rest ih =>
    refine .take ?_
    show Ends A past k (Parser.improveOver A past k (behind rest work) s) out
    rw [improveOver_behind]
    exact ih h

/-! ## Offers, rounds and the whole search -/

/-- A complete state in the midst of its offers: which cells it has served, at which score. It keeps
that score, unless it is to make its offers again. -/
structure Serving (G : Grammar P W) (past : List (Column P W)) (k : Nat) (read : Payload → Prop)
    (base : Column P W) (n : Nat) (todo : List (State P W)) (done : State P W) (w : W)
    (ps : List (Cell P W)) (work : Improvement P W) : Prop where
  searching : ∃ stamp, Searching G past k read base n stamp todo work.improved work.column
  score : ∃ d, work.column.best? done = some d ∧ ¬ Worse G d.score w
  steady : done ∈ work.improved ∨ ∃ d, work.column.best? done = some d ∧ d.score = w
  past_mem : ∀ p ∈ ps, p ∈ pastColumn past done.origin
  served : ∀ p ∈ ps, ∀ b, p.best = some b → ∃ t, work.column.best? (p.state.advance k) = some t ∧
    ¬ Worse G t.score (G.algebra.mul b.score w)

/-- A cell counts as served once the state it moves to has a derivation no worse than the offer. -/
theorem Serving.concat {done : State P W} {w : W} {ps : List (Cell P W)} {work : Improvement P W}
    (h : Serving G past k read base n todo done w ps work) {p : Cell P W}
    (hp : p ∈ pastColumn past done.origin)
    (hserved : ∀ b, p.best = some b → ∃ t, work.column.best? (p.state.advance k) = some t ∧
      ¬ Worse G t.score (G.algebra.mul b.score w)) :
    Serving G past k read base n todo done w (ps ++ [p]) work := by
  refine ⟨h.searching, h.score, h.steady, fun p' hp' => ?_, fun p' hp' => ?_⟩
  · rcases List.mem_append.mp hp' with hp' | hp'
    · exact h.past_mem p' hp'
    · rw [List.mem_singleton.mp hp']
      exact hp
  · rcases List.mem_append.mp hp' with hp' | hp'
    · exact h.served p' hp'
    · rw [List.mem_singleton.mp hp']
      exact hserved

/-- A better derivation takes nothing away from the cells that have been served. -/
theorem Serving.replace (hG : G.Compiled solver) (hnever : NeverRaises G)
    (hs : SearchBase G goal past k base) {done : State P W} (hdone : done ∈ todo) {w : W}
    (hw : Attainable G w) {ps : List (Cell P W)} {work : Improvement P W}
    (h : Serving G past k read base n todo done w ps work) {p : Cell P W} {b : Backpointer P W}
    (hoffers : Offers G goal past k base done p b) {cand : Backpointer P W}
    (hcand : cand = ⟨.completed, G.algebra.mul b.score w, some p.state, some done, none⟩)
    (hbetter : ∀ t, work.column.best? (p.state.advance k) = some t → Worse G t.score cand.score) :
    Serving G past k read base n todo done w ps
      ⟨replaced G.algebra (p.state.advance k) cand work.column,
        if (p.state.advance k).isComplete then work.improved ++ [p.state.advance k]
        else work.improved⟩ := by
  obtain ⟨stamp, hsearch⟩ := h.searching
  obtain ⟨d, hd, hle⟩ := h.score
  have hord := hnever.order
  have hatt : Attainable G cand.score := by
    rw [hcand]
    exact .mul (hs.past_ready.attainable hoffers.mem hoffers.best) hw
  have hnoWorse := noWorse_replaced hord hatt hsearch.attainable hbetter
  have hatt' := allAttainable_replaced (s := p.state.advance k) hatt hsearch.attainable
  -- what was no worse than some score before is so still
  have hkeep : ∀ {s t v}, Attainable G v → work.column.best? s = some t → ¬ Worse G t.score v →
      ∃ t', (replaced G.algebra (p.state.advance k) cand work.column).best? s = some t' ∧
        ¬ Worse G t'.score v := by
    intro s t v hv ht hnot
    obtain ⟨t', ht', hnot'⟩ := hnoWorse _ _ ht
    exact ⟨t', ht', hord.trans (hatt' _ _ ht') (hsearch.attainable _ _ ht) hv hnot' hnot⟩
  refine ⟨hsearch.replace hG hnever hs hoffers
    (hsearch.todo_stamp done hdone) hd hw hle hcand hbetter,
    hkeep hw hd hle, ?_, h.past_mem, fun p' hp' b' hb' => ?_⟩
  · by_cases hds : done = p.state.advance k
    · exact Or.inl (mem_queue.mpr (Or.inr ⟨hds, hds ▸ (hsearch.todo_open done hdone).2.1⟩))
    · have hmem : p.state.advance k ∈ work.column.states := hsearch.states_eq ▸ hoffers.mem'
      have hdmem : done ∈ work.column.states := hsearch.states_eq ▸ hoffers.isOpen.1
      refine h.steady.imp (fun hin => mem_queue.mpr (Or.inl hin)) fun hsame => ?_
      rw [best?_replaced_of_ne hG (hsearch.shaped hs) hmem cand hdmem hds]
      exact hsame
  · obtain ⟨t, ht, hnot⟩ := h.served p' hp' b' hb'
    exact hkeep (.mul (hs.past_ready.attainable (h.past_mem p' hp') hb') hw) ht hnot

/-- One offer. -/
theorem Serving.offerOver (hG : G.Compiled solver) (hnever : NeverRaises G)
    (hs : SearchBase G goal past k base) {done : State P W} (hdone : done ∈ todo) {w : W}
    (hw : Attainable G w) {ps : List (Cell P W)} {work : Improvement P W}
    (h : Serving G past k read base n todo done w ps work) {p : Cell P W}
    (hp : p ∈ (pastColumn past done.origin).waiting done.rule.lhs) :
    Serving G past k read base n todo done w (ps ++ [p])
      (offerOver G.algebra k done w work p) := by
  obtain ⟨stamp, hsearch⟩ := h.searching
  have hmem : p ∈ pastColumn past done.origin := (List.mem_filter.mp hp).1
  unfold Parser.offerOver
  cases hb : p.best with
  | none =>
    refine h.concat hmem fun b' hb' => ?_
    rw [hb] at hb'
    cases hb'
  | some b =>
    have hoffers := offers_of_waiting hG hs (hsearch.todo_open done hdone) hp hb
    have hcontains : work.column.contains (p.state.advance k) = true := by
      rw [(hsearch.shaped hs).contains_iff_mem_states hG hoffers.fits'.rule, hsearch.states_eq]
      exact hoffers.mem'
    rcases alter_offer_cases G.algebra
        ⟨.completed, G.algebra.mul b.score w, some p.state, some done, none⟩ hcontains with
      ⟨himproves, hcol, t, ht, hnot⟩ | ⟨himproves, hcol, hbetter⟩
    · -- nothing changes, and the state has something that is no worse
      simp only [himproves, hcol, Bool.false_and]
      refine h.concat hmem fun b' hb' => ?_
      rw [hb] at hb'
      cases hb'
      exact ⟨t, ht, hnot⟩
    · simp only [himproves, hcol, Bool.true_and]
      refine (h.replace hG hnever hs hdone hw hoffers rfl hbetter).concat hmem fun b' hb' => ?_
      rw [hb] at hb'
      cases hb'
      refine ⟨_, (best?_replaced _ _ _ _ _).trans (if_pos BEq.rfl), ?_⟩
      exact hnever.order.irrefl (.mul (hs.past_ready.attainable hmem hb) hw)

theorem Serving.foldl_offerOver (hG : G.Compiled solver) (hnever : NeverRaises G)
    (hs : SearchBase G goal past k base) {done : State P W} (hdone : done ∈ todo) {w : W}
    (hw : Attainable G w) {ps qs : List (Cell P W)} {work : Improvement P W}
    (h : Serving G past k read base n todo done w ps work)
    (hqs : ∀ p ∈ qs, p ∈ (pastColumn past done.origin).waiting done.rule.lhs) :
    Serving G past k read base n todo done w (ps ++ qs)
      (qs.foldl (Parser.offerOver G.algebra k done w) work) := by
  induction qs generalizing ps work with
  | nil => simpa using h
  | cons q qs ih =>
    have hstep := h.offerOver hG hnever hs hdone hw (hqs q List.mem_cons_self)
    have hrest := ih hstep fun p hp => hqs p (List.mem_cons_of_mem _ hp)
    rwa [List.append_assoc] at hrest

/-- A state that has made all its offers is settled, or it is to make them again. -/
theorem Searching.improveOver (hG : G.Compiled solver) (hnever : NeverRaises G)
    (hs : SearchBase G goal past k base) {done : State P W} {rest : List (State P W)}
    {work : Improvement P W}
    (h : Searching G past k read base n stamp (done :: rest) work.improved work.column) :
    ∃ stamp', Searching G past k read base n stamp' rest
      (improveOver G.algebra past k work done).improved
      (improveOver G.algebra past k work done).column := by
  -- once the state is settled or queued again, it is done with for this round
  have hdrop : ∀ {stamp' next' col'},
      Searching G past k read base n stamp' (done :: rest) next' col' →
      done ∈ next' ∨ Settled G past k col' done →
      Searching G past k read base n stamp' rest next' col' := by
    intro stamp' next' col' h' hdone
    refine ⟨h'.core, h'.entries, h'.attainable, h'.relaxed, h'.noWorse, h'.stamped, h'.stamp_le,
      fun s hs => h'.todo_stamp s (List.mem_cons_of_mem _ hs), h'.next_stamp,
      fun s hs => h'.todo_open s (List.mem_cons_of_mem _ hs), h'.next_open, fun d hd => ?_⟩
    rcases h'.settled d hd with htodo | hrest
    · rcases List.mem_cons.mp htodo with rfl | htodo
      · exact Or.inr hdone
      · exact Or.inl htodo
    · exact Or.inr hrest
  unfold Parser.improveOver
  cases hd : work.column.best? done with
  | none =>
    refine ⟨stamp, hdrop h (Or.inr fun d hd' => ?_)⟩
    rw [hd] at hd'
    cases hd'
  | some d =>
    have hw := h.attainable done d hd
    have hstart : Serving G past k read base n (done :: rest) done d.score [] work :=
      ⟨⟨stamp, h⟩, ⟨d, hd, hnever.order.irrefl hw⟩, Or.inr ⟨d, hd, rfl⟩,
        fun p hp => (by cases hp), fun p hp => (by cases hp)⟩
    have hserved := hstart.foldl_offerOver hG hnever hs List.mem_cons_self hw fun p hp => hp
    obtain ⟨stamp', hsearch⟩ := hserved.searching
    refine ⟨stamp', hdrop hsearch (hserved.steady.imp id ?_)⟩
    rintro ⟨d', hd', hscore⟩ d'' hd'' p hp b hb
    rw [hd'] at hd''
    cases hd''
    rw [hscore]
    exact hserved.served p hp b hb

/-- One round. -/
theorem Searching.foldl_improveOver (hG : G.Compiled solver) (hnever : NeverRaises G)
    (hs : SearchBase G goal past k base) {queue : List (State P W)} (work : Improvement P W)
    (h : Searching G past k read base n stamp queue work.improved work.column) :
    ∃ stamp', Searching G past k read base n stamp' []
      (queue.foldl (Parser.improveOver G.algebra past k) work).improved
      (queue.foldl (Parser.improveOver G.algebra past k) work).column := by
  induction queue generalizing work stamp with
  | nil => exact ⟨stamp, h⟩
  | cons done rest ih =>
    obtain ⟨stamp', h'⟩ := h.improveOver hG hnever hs
    exact ih _ h'

/-- No state is improved in a round later than there are states. -/
theorem Searching.length_ge (h : Searching G past k read base n stamp todo next col)
    {s : State P W} (hs : s ∈ next) : n ≤ col.length := by
  have hnodes : ∀ {x y : State P W}, points col x y → y ∈ col.states := by
    rintro x y ⟨c, hc, rfl, b, hb, hy⟩
    have hentry := h.entries hc hb
    generalize c.state = x at hentry
    cases hentry with
    | scanned => cases hy
    | completed hopen =>
      cases hy
      exact hopen.1
  have hle := h.stamped.le_depth h.relaxed.acyclic hnodes s
  have hdepth := depth_le (points col) col.states s
  have hstamp := h.next_stamp s hs
  rw [Column.states, List.length_map] at hdepth
  unfold Column.states at hle
  omega

theorem Searching.improve (hG : G.Compiled solver) (hnever : NeverRaises G)
    (hs : SearchBase G goal past k base) {fuel : Nat} (work : Improvement P W)
    (h : Searching G past k read base n stamp [] work.improved work.column)
    (hfuel : base.length < fuel + n) :
    Ends G.algebra past k work (improve G.algebra past k fuel work) ∧
      ∃ n' stamp', Searching G past k read base n' stamp' [] []
        (improve G.algebra past k fuel work) := by
  induction fuel generalizing n stamp work with
  | zero =>
    obtain ⟨column, improved⟩ := work
    cases improved with
    | nil => exact ⟨.done, n, stamp, h⟩
    | cons s rest =>
      have hle := h.length_ge List.mem_cons_self
      have hlen : column.length = base.length := by
        simpa using congrArg List.length h.core
      rw [Nat.zero_add] at hfuel
      dsimp only at hle
      omega
  | succ fuel ih =>
    obtain ⟨column, improved⟩ := work
    cases improved with
    | nil => exact ⟨.done, n, stamp, h⟩
    | cons s rest =>
      have hround : Searching G past k read base (n + 1) stamp (s :: rest) [] column :=
        ⟨h.core, h.entries, h.attainable, h.relaxed, h.noWorse, h.stamped,
          fun t => Nat.le_succ_of_le (h.stamp_le t),
          fun t ht => Nat.succ_le_succ (h.next_stamp t ht), fun t ht => (by cases ht),
          h.next_open, fun t ht => (by cases ht), fun d hd => by
            rcases h.settled d hd with hnil | hnext
            · cases hnil
            · exact hnext.imp id Or.inr⟩
      obtain ⟨stamp', h'⟩ := Searching.foldl_improveOver hG hnever hs ⟨column, []⟩ hround
      obtain ⟨hends, hfound⟩ := ih _ h' (by omega)
      have hqueue := hends.of_round
      rw [behind, List.append_nil] at hqueue
      exact ⟨hqueue, hfound⟩

end Better

/-! ## The best derivations of a column -/

/-- What completing the best derivations leaves. -/
structure Improved (G : Grammar P W) (past : List (Column P W)) (k : Nat) (read : Payload → Prop)
    (base col : Column P W) : Prop where
  ends : Ends G.algebra past k
    ⟨base, base.states.filter fun s => s.isComplete && decide (s.origin < k)⟩ col
  core : col.map Cell.core = base.map Cell.core
  entries : ∀ {c b}, c ∈ col → c.best = some b → Entry G past k read col c.state b
  attainable : AllAttainable G col
  acyclic : Acyclic (points col)
  noWorse : NoWorse G base col
  settled : ∀ done, IsOpen k col done → Settled G past k col done

/-- **The search for best derivations comes to its end.** -/
theorem improved_completeBest (hG : G.Compiled solver) (hnever : NeverRaises G)
    (hs : SearchBase G goal past k base)
    (hbase : ∀ {c b}, c ∈ base → c.best = some b → Entry G past k read base c.state b)
    (hscanned : ∀ {c b}, c ∈ base → c.best = some b → b.completed = none) :
    Improved G past k read base (completeBest G.algebra past k base) := by
  have hpoints : ∀ x y, ¬ points base x y := by
    rintro x y ⟨c, hc, rfl, b, hb, hy⟩
    rw [hscanned hc hb] at hy
    cases hy
  have hacyclic : Acyclic (points base) := by
    intro x hx
    obtain ⟨y, hxy, _⟩ := Relation.TransGen.head'_iff.mp hx
    exact hpoints x y hxy
  have hrelaxed : Relaxed (Attainable G) (Worse G) level (label base) (points base) := by
    refine ⟨fun {x w} hx => ?_, fun {x y} hxy => absurd hxy (hpoints x y),
      fun {x y} hxy => absurd hxy (hpoints x y), fun {x y w v} hxy => absurd hxy (hpoints x y),
      hacyclic⟩
    unfold label at hx
    split at hx
    · obtain ⟨b, hb, rfl⟩ := Option.map_eq_some_iff.mp hx
      exact hs.attainable x b hb
    · cases hx
  have hstart : Searching G past k read base 0 (fun _ => 0) []
      (base.states.filter fun s => s.isComplete && decide (s.origin < k)) base := by
    refine ⟨rfl, hbase, hs.attainable, hrelaxed,
      fun s b hb => ⟨b, hb, ?_⟩, fun x => Or.inl (Nat.le_refl 0),
      fun s => Nat.le_refl 0, fun s hs => (by cases hs), fun s _ => Nat.zero_le _,
      fun s hs => (by cases hs), fun s hs => ?_, fun done hdone => Or.inr (Or.inl ?_)⟩
    · exact hnever.order.irrefl (hs.attainable s b hb)
    · obtain ⟨hmem, hs⟩ := List.mem_filter.mp hs
      rw [Bool.and_eq_true, decide_eq_true_eq] at hs
      exact ⟨hmem, hs⟩
    · refine List.mem_filter.mpr ⟨hdone.1, ?_⟩
      rw [Bool.and_eq_true, decide_eq_true_eq]
      exact hdone.2
  have hfuel : base.length < base.length + countStates past + patience + 0 := by
    have : 0 < patience := by decide
    omega
  obtain ⟨hends, n, stamp, h⟩ := Searching.improve hG hnever hs ⟨base, _⟩ hstart hfuel
  refine ⟨hends, h.core, h.entries, h.attainable, h.relaxed.acyclic, h.noWorse,
    fun done hdone => ?_⟩
  rcases h.settled done (isOpen_of_core_eq h.core hdone) with hnil | hnil | hsettled
  · cases hnil
  · cases hnil
  · exact hsettled

end StochasticGrammar.Parser
