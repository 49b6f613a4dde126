import StochasticGrammar.Proofs.CallHistory

/-!
# The tables of an indexed chart

The four lists of tables grow together, and a state gets into all that it has to be in through
`add`. How the tables stand to each other is `Aligned`, and every change keeps it; what they hold is
a matter of the calls. On aligned tables no look-up fails on the way, so that a call is an entry of
its state (`entered`) and at most one value that is written anew (`written`).

> `IndexedChart.Keeps.perform`: one more call is one more entry of the record.

> `IndexedChart.keeps_performAll`: what a chart holds that was built up from nothing.
-/

namespace StochasticGrammar

/-! ## Tables by position -/

section Tables

variable {κ ν : Type} {tables : List (Table κ ν)}

/-- A position that is there has its own table. -/
theorem getElem?_eq_tableAt {k : Nat} (hk : k < tables.length) :
    tables[k]? = some (tableAt tables k) := by
  rw [tableAt, List.getElem?_eq_getElem hk]
  rfl

/-- Replacing one table leaves the others alone. -/
theorem tableAt_set {k : Nat} (hk : k < tables.length) (t : Table κ ν) (j : Nat) :
    tableAt (tables.set k t) j = if j = k then t else tableAt tables j := by
  unfold tableAt
  by_cases hj : j = k
  · subst hj
    rw [if_pos rfl, List.getElem?_set_self hk]
    rfl
  · rw [if_neg hj, List.getElem?_set_ne fun he => hj he.symm]

theorem set_tableAt (tables : List (Table κ ν)) (k : Nat) :
    tables.set k (tableAt tables k) = tables := by
  by_cases hk : k < tables.length
  · rw [tableAt, List.getElem?_eq_getElem hk]
    exact List.set_getElem_self hk
  · exact List.set_eq_of_length_le (Nat.le_of_not_lt hk)

/-- Empty tables at the end change no look-up. -/
theorem tableAt_append_replicate (n j : Nat) :
    tableAt (tables ++ List.replicate n []) j = tableAt tables j := by
  unfold tableAt
  by_cases hj : j < tables.length
  · rw [List.getElem?_append_left hj]
  · have hbeyond : tables.length ≤ j := Nat.le_of_not_lt hj
    rw [List.getElem?_append_right hbeyond, List.getElem?_eq_none hbeyond, List.getElem?_replicate]
    split
    · rfl
    · rfl

/-- A key has an entry when it stands among the keys. -/
theorem Table.isSome_get? [BEq κ] [EquivBEq κ] (t : Table κ ν) (x : κ) :
    (t.get? x).isSome = t.keys.any (· == x) := by
  induction t with
  | nil => rfl
  | cons e t ih =>
    obtain ⟨k, v⟩ := e
    rw [Table.get?_cons, Table.keys, List.map_cons, List.any_cons, BEq.comm]
    by_cases hk : (k == x) = true
    · rw [if_pos hk, hk]
      rfl
    · rw [if_neg hk, ih, Bool.eq_false_iff.mpr hk]
      rfl

end Tables

namespace IndexedChart

variable {P W : Type}

/-! ## Tables of scores -/

theorem scores_empty (kind : ScoreKind) : (empty : IndexedChart P W).scores kind = [] := by
  cases kind with
  | forward => rfl
  | inner => rfl

/-- Writing scores does not touch the states and their derivations. -/
theorem items_setScores (c : IndexedChart P W) (kind : ScoreKind)
    (tables : List (Table (State P W) W)) : (c.setScores kind tables).items = c.items := by
  cases kind with
  | forward => rfl
  | inner => rfl

/-- Writing scores does not touch the index. -/
theorem waiting_setScores (c : IndexedChart P W) (kind : ScoreKind)
    (tables : List (Table (State P W) W)) : (c.setScores kind tables).waiting = c.waiting := by
  cases kind with
  | forward => rfl
  | inner => rfl

/-- Only the scores of one kind are replaced. -/
theorem scores_setScores (c : IndexedChart P W) (kind : ScoreKind)
    (tables : List (Table (State P W) W)) (other : ScoreKind) :
    (c.setScores kind tables).scores other = if other = kind then tables else c.scores other := by
  cases kind <;> cases other <;> rfl

theorem length_setScores (c : IndexedChart P W) (kind : ScoreKind)
    (tables : List (Table (State P W) W)) : (c.setScores kind tables).length = c.length := by
  rw [length, items_setScores, length]

theorem states_setScores (c : IndexedChart P W) (kind : ScoreKind)
    (tables : List (Table (State P W) W)) (k : Nat) :
    (c.setScores kind tables).states k = c.states k := by
  rw [states, items_setScores, states]

/-- The states and their derivations are no matter of the scores. -/
theorem scores_write_items (c : IndexedChart P W)
    (items : List (Table (State P W) (Option (Backpointer P W)))) (kind : ScoreKind) :
    scores { c with items } kind = c.scores kind := by
  cases kind with
  | forward => rfl
  | inner => rfl

/-! ## More positions -/

/-- All four lists grow by the same number of empty tables. -/
theorem ensure_eq (c : IndexedChart P W) (k : Nat) :
    c.ensure k = ⟨c.items ++ List.replicate (k + 1 - c.length) [],
      c.waiting ++ List.replicate (k + 1 - c.length) [],
      c.forward ++ List.replicate (k + 1 - c.length) [],
      c.inner ++ List.replicate (k + 1 - c.length) []⟩ := by
  unfold ensure
  induction k + 1 - c.length with
  | zero => simp [Nat.repeat]
  | succ n ih => simp [Nat.repeat, ih, push, List.replicate_succ']

/-- A chart only grows. -/
theorem length_ensure (c : IndexedChart P W) (k : Nat) :
    (c.ensure k).length = max c.length (k + 1) := by
  rw [ensure_eq, length, List.length_append, List.length_replicate, ← length]
  omega

/-- A chart that grows has empty tables of scores at the new positions. -/
theorem scores_ensure (c : IndexedChart P W) (k : Nat) (kind : ScoreKind) :
    (c.ensure k).scores kind = c.scores kind ++ List.replicate (k + 1 - c.length) [] := by
  rw [ensure_eq]
  cases kind with
  | forward => rfl
  | inner => rfl

/-- A chart that grows holds no more states. -/
theorem states_ensure (c : IndexedChart P W) (k j : Nat) : (c.ensure k).states j = c.states j := by
  rw [ensure_eq, states, tableAt_append_replicate, states]

/-! ## Filing a state -/

/-- The index of a position with one more state, if the state waits for anything. -/
def filed (index : Table Category (List (State P W))) (s : State P W) :
    Table Category (List (State P W)) :=
  match s.next? with
  | none => index
  | some x => index.insert x ((index.get? x).getD [] ++ [s])

/-- A new state comes last among those that wait for the same symbol. -/
theorem get?_filed (index : Table Category (List (State P W))) (s : State P W) (x : Category) :
    ((filed index s).get? x).getD []
      = (index.get? x).getD [] ++ if s.next?.any (· == x) then [s] else [] := by
  unfold filed
  cases s.next? with
  | none => simp
  | some y =>
    show ((index.insert y _).get? x).getD [] = _ ++ if y == x then [s] else []
    rw [Table.get?_insert]
    by_cases hyx : (y == x) = true
    · rw [if_pos hyx, if_pos (BEq.symm hyx), Table.get?_congr index hyx]
      rfl
    · have hxy : ¬ (x == y) = true := fun hxy => hyx (BEq.symm hxy)
      rw [if_neg hyx, if_neg hxy, List.append_nil]

variable [DecidableEq P] [DecidableEq W]

/-! ## Writing the entry of a state -/

section Written

variable {ν : Type} {tables : List (Table (State P W) ν)} {s : State P W}

/-- The tables with an entry for a state in the table of its position. -/
def written (tables : List (Table (State P W) ν)) (s : State P W) (v : ν) :
    List (Table (State P W) ν) :=
  tables.set s.position ((tableAt tables s.position).insert s v)

@[simp] theorem length_written (v : ν) : (written tables s v).length = tables.length :=
  List.length_set

/-- A state that is written reads as written, and all others as before. -/
theorem valueAt_written (hs : s.position < tables.length) (z v : ν) (t : State P W) :
    valueAt z (written tables s v) t = if s == t then v else valueAt z tables t := by
  unfold valueAt written
  rw [tableAt_set hs]
  by_cases hst : (s == t) = true
  · have hposition : t.position = s.position := ((State.beq_iff s t).mp hst).2.2.1.symm
    rw [if_pos hposition, Table.get?_insert, if_pos (BEq.symm hst), if_pos hst]
    rfl
  · rw [if_neg hst]
    by_cases hposition : t.position = s.position
    · have hts : ¬ (t == s) = true := fun hts => hst (BEq.symm hts)
      rw [if_pos hposition, Table.get?_insert, if_neg hts, hposition]
    · rw [if_neg hposition]

/-- A state that is written becomes a key unless it was one. -/
theorem keys_written (hs : s.position < tables.length) (v : ν) (k : Nat) :
    (tableAt (written tables s v) k).keys
      = if k = s.position ∧ ¬ (tableAt tables k).keys.any (· == s) = true
        then (tableAt tables k).keys ++ [s] else (tableAt tables k).keys := by
  unfold written
  rw [tableAt_set hs]
  by_cases hk : k = s.position
  · subst hk
    rw [if_pos rfl, Table.keys_insert]
    by_cases hany : (tableAt tables s.position).keys.any (· == s) = true
    · rw [if_pos hany, if_neg (fun h => h.2 hany)]
    · rw [if_neg hany, if_pos ⟨rfl, hany⟩]
  · rw [if_neg hk, if_neg (fun h => hk h.1)]

/-- States that are the same have the same value. -/
theorem valueAt_congr (z : ν) (tables : List (Table (State P W) ν)) {t : State P W}
    (hst : (s == t) = true) : valueAt z tables s = valueAt z tables t := by
  unfold valueAt
  rw [((State.beq_iff s t).mp hst).2.2.1, Table.get?_congr _ hst]

/-- A key that is new in the tables is the state itself. -/
theorem any_of_mem_keys_written (hs : s.position < tables.length)
    {held : Nat → List (State P W)}
    (h : ∀ k, ∀ t ∈ (tableAt tables k).keys, (held k).any (· == t) = true)
    (hheld : (held s.position).any (· == s) = true) (v : ν) (k : Nat) (t : State P W)
    (ht : t ∈ (tableAt (written tables s v) k).keys) : (held k).any (· == t) = true := by
  rw [keys_written hs] at ht
  split at ht
  · next hnew =>
    rcases List.mem_append.mp ht with ht | ht
    · exact h k t ht
    · rw [List.mem_singleton.mp ht, hnew.1]
      exact hheld
  · exact h k t ht

/-- The value of a state written anew, as it reads for the states that are the same. -/
theorem valueAt_written_value (hs : s.position < tables.length) (z : ν) (f : ν → ν)
    (t : State P W) :
    valueAt z (written tables s (f (valueAt z tables s))) t
      = if s == t then f (valueAt z tables t) else valueAt z tables t := by
  rw [valueAt_written hs]
  by_cases hst : (s == t) = true
  · rw [if_pos hst, if_pos hst, valueAt_congr z tables hst]
  · rw [if_neg hst, if_neg hst]

end Written

/-! ## Entering a state -/

variable {c : IndexedChart P W} {s : State P W}

/-- A state is there if it is among the states of its position. -/
theorem contains_eq_any (c : IndexedChart P W) (s : State P W) :
    c.contains s = (c.states s.position).any (· == s) :=
  Table.isSome_get? _ _

theorem not_new_of_contains (hc : c.contains s = true) (k : Nat) :
    ¬ (k = s.position ∧ ¬ (c.states k).any (· == s) = true) := by
  intro h
  obtain ⟨rfl, hnew⟩ := h
  rw [contains_eq_any] at hc
  exact hnew hc

/-- The tables of a position are filed under one another: there are as many of each kind, the index
has the states in order, and no score is kept of a state that is not there. -/
structure Aligned (c : IndexedChart P W) : Prop where
  waiting_length : c.waiting.length = c.length
  score_length : ∀ kind, (c.scores kind).length = c.length
  index : ∀ k x, ((tableAt c.waiting k).get? x).getD []
    = (c.states k).filter fun s => s.next?.any (· == x)
  score_keys : ∀ kind k, ∀ s ∈ (tableAt (c.scores kind) k).keys, (c.states k).any (· == s) = true

/-- A chart without positions is aligned. -/
theorem aligned_empty : Aligned (empty : IndexedChart P W) where
  waiting_length := rfl
  score_length := fun kind => by rw [scores_empty]; rfl
  index := fun _ _ => rfl
  score_keys := by
    intro kind k s hs
    rw [scores_empty] at hs
    exact absurd hs List.not_mem_nil

/-- The chart with a state entered. -/
def entered (c : IndexedChart P W) (s : State P W) : IndexedChart P W :=
  if c.contains s then c
  else { c with
    items := written c.items s none
    waiting := c.waiting.set s.position (filed (tableAt c.waiting s.position) s) }

theorem scores_entered (c : IndexedChart P W) (s : State P W) (kind : ScoreKind) :
    (c.entered s).scores kind = c.scores kind := by
  unfold entered
  split
  · rfl
  · cases kind with
    | forward => rfl
    | inner => rfl

/-- Entering a state leaves all scores as they read. -/
theorem score_entered (A : ScoreAlgebra P W) (c : IndexedChart P W) (s : State P W)
    (kind : ScoreKind) (t : State P W) : (c.entered s).score A kind t = c.score A kind t := by
  rw [score, scores_entered, score]

theorem length_entered (c : IndexedChart P W) (s : State P W) :
    (c.entered s).length = c.length := by
  unfold entered
  split
  · rfl
  · exact length_written none

/-- Only a new state is added, at the end of its position. -/
theorem states_entered (hs : s.position < c.length) (k : Nat) :
    (c.entered s).states k = if k = s.position ∧ ¬ (c.states k).any (· == s) = true
      then c.states k ++ [s] else c.states k := by
  unfold entered
  by_cases hc : c.contains s = true
  · rw [if_pos hc, if_neg (not_new_of_contains hc k)]
  · rw [if_neg hc]
    exact keys_written hs none k

theorem any_states_entered (hs : s.position < c.length) :
    ((c.entered s).states s.position).any (· == s) = true := by
  rw [states_entered hs]
  by_cases hc : (c.states s.position).any (· == s) = true
  · rw [if_neg (fun h => h.2 hc), hc]
  · rw [if_pos ⟨rfl, hc⟩, List.any_append]
    simp

/-- The states that were there are there. -/
theorem any_states_entered_of_any (hs : s.position < c.length) {k : Nat} {t : State P W}
    (ht : (c.states k).any (· == t) = true) : ((c.entered s).states k).any (· == t) = true := by
  rw [states_entered hs]
  split
  · rw [List.any_append, ht, Bool.true_or]
  · exact ht

/-- A state that is entered has no derivation yet, which is how it read before. -/
theorem best?_entered (hs : s.position < c.length) (t : State P W) :
    (c.entered s).best? t = c.best? t := by
  unfold entered
  by_cases hc : c.contains s = true
  · rw [if_pos hc]
  · rw [if_neg hc]
    refine (valueAt_written hs none none t).trans ?_
    by_cases hst : (s == t) = true
    · -- a state that is not there has no derivation
      rw [if_pos hst, best?, valueAt, ← ((State.beq_iff s t).mp hst).2.2.1,
        ← Table.get?_congr _ hst]
      rw [contains, Bool.not_eq_true, Option.isSome_eq_false_iff, Option.isNone_iff_eq_none] at hc
      rw [hc]
      rfl
    · rw [if_neg hst]
      rfl

namespace Aligned

/-- Entering a state is what `add` does. -/
theorem add_eq (h : Aligned c) (hs : s.position < c.length) :
    c.add s = (c.entered s, .ok !c.contains s) := by
  have hitems : c.items[s.position]? = some (tableAt c.items s.position) := getElem?_eq_tableAt hs
  have hwaiting : c.waiting[s.position]? = some (tableAt c.waiting s.position) :=
    getElem?_eq_tableAt (by rw [h.waiting_length]; exact hs)
  unfold add entered filed
  rw [hitems]
  by_cases hc : c.contains s = true
  · have hthere : ((tableAt c.items s.position).get? s).isSome = true := hc
    simp only [hthere, hc, if_true, Bool.not_true]
  · have hnew : ¬ ((tableAt c.items s.position).get? s).isSome = true := hc
    simp only [if_neg hnew, Bool.eq_false_iff.mpr hc, Bool.not_false]
    cases s.next? with
    | none =>
      -- a complete state leaves the index as it is
      simp only [set_tableAt]
      rfl
    | some x =>
      simp only [hwaiting]
      rfl

/-- **Entering a state keeps a chart aligned.** -/
theorem entered (h : Aligned c) (hs : s.position < c.length) : Aligned (c.entered s) where
  waiting_length := by
    rw [length_entered, ← h.waiting_length]
    unfold IndexedChart.entered
    split
    · rfl
    · exact List.length_set
  score_length := fun kind => by rw [length_entered, scores_entered, h.score_length]
  index := by
    intro k x
    rw [states_entered hs]
    by_cases hc : c.contains s = true
    · rw [IndexedChart.entered, if_pos hc, if_neg (not_new_of_contains hc k), h.index]
    · rw [IndexedChart.entered, if_neg hc]
      show ((tableAt (c.waiting.set s.position _) k).get? x).getD [] = _
      rw [tableAt_set (by rw [h.waiting_length]; exact hs)]
      by_cases hk : k = s.position
      · -- the new state comes last in the column, and last among those that it is filed with
        subst hk
        rw [contains_eq_any] at hc
        rw [if_pos rfl, if_pos ⟨rfl, hc⟩, get?_filed, h.index, List.filter_append,
          List.filter_singleton, cond_eq_ite]
      · rw [if_neg hk, if_neg (fun h => hk h.1), h.index]
  score_keys := by
    intro kind k t ht
    rw [scores_entered] at ht
    exact any_states_entered_of_any hs (h.score_keys kind k t ht)

/-- A score of a state that is there keeps the tables aligned. -/
theorem write_scores (h : Aligned c) (hs : s.position < c.length)
    (hthere : (c.states s.position).any (· == s) = true) (kind : ScoreKind) (w : W) :
    Aligned (c.setScores kind (written (c.scores kind) s w)) where
  waiting_length := by rw [waiting_setScores, length_setScores, h.waiting_length]
  score_length := by
    intro other
    rw [scores_setScores, length_setScores]
    by_cases hother : other = kind
    · rw [if_pos hother, length_written, h.score_length]
    · rw [if_neg hother, h.score_length]
  index := by
    intro k x
    rw [waiting_setScores, states_setScores, h.index]
  score_keys := by
    intro other k t ht
    rw [scores_setScores] at ht
    rw [states_setScores]
    by_cases hother : other = kind
    · rw [if_pos hother] at ht
      have hlt : s.position < (c.scores kind).length := by rwa [h.score_length]
      exact any_of_mem_keys_written hlt (h.score_keys kind) hthere w k t ht
    · rw [if_neg hother] at ht
      exact h.score_keys other k t ht

end Aligned

/-- A derivation of a state that is there changes no states. -/
theorem states_write_items (hs : s.position < c.length)
    (hthere : (c.states s.position).any (· == s) = true) (b : Option (Backpointer P W)) (k : Nat) :
    states { c with items := written c.items s b } k = c.states k := by
  refine (keys_written hs b k).trans (if_neg fun h => ?_)
  obtain ⟨rfl, hnew⟩ := h
  exact hnew hthere

/-- Writing the derivation of a state that is there keeps a chart aligned. -/
theorem Aligned.write_items (h : Aligned c) (hs : s.position < c.length)
    (hthere : (c.states s.position).any (· == s) = true) (b : Option (Backpointer P W)) :
    Aligned { c with items := written c.items s b } := by
  have hstates := states_write_items hs hthere b
  have hlength : length { c with items := written c.items s b } = c.length := length_written b
  refine ⟨?_, ?_, ?_, ?_⟩
  · rw [hlength]
    exact h.waiting_length
  · intro kind
    rw [hlength, scores_write_items]
    exact h.score_length kind
  · intro k x
    rw [hstates]
    exact h.index k x
  · intro kind k t ht
    rw [scores_write_items] at ht
    rw [hstates]
    exact h.score_keys kind k t ht

/-! ## The calls -/

section Calls

variable {A : ScoreAlgebra P W}

/-- Adding to a score enters the state and writes the sum. -/
theorem Aligned.addScore_eq (h : Aligned c) (hs : s.position < c.length) (kind : ScoreKind)
    (w : W) :
    c.addScore A kind s w = ((c.entered s).setScores kind
      (written ((c.entered s).scores kind) s (A.add (c.score A kind s) w)), .ok ()) := by
  have hscores : (c.scores kind)[s.position]? = some (tableAt (c.scores kind) s.position) :=
    getElem?_eq_tableAt (by rw [h.score_length]; exact hs)
  unfold addScore
  simp only [h.add_eq hs, scores_entered, hscores]
  rfl

/-- An offered derivation enters the state, and it is written if it is the first one there or beats
it. -/
theorem Aligned.offer_eq (h : Aligned c) (hs : s.position < c.length) (b : Backpointer P W) :
    c.offer A s b = if (c.best? s).all fun old => A.isBetter b.score old.score then
      ({ c.entered s with items := written (c.entered s).items s (some b) }, .ok true)
      else (c.entered s, .ok false) := by
  have hitems : (c.entered s).items[s.position]? = some (tableAt (c.entered s).items s.position) :=
    getElem?_eq_tableAt (by rw [← length, length_entered]; exact hs)
  have hbest : ((tableAt (c.entered s).items s.position).get? s).getD none = c.best? s :=
    best?_entered hs s
  unfold offer
  simp only [h.add_eq hs, hitems, hbest]
  rfl

/-- A chart that grows stays aligned. -/
theorem Aligned.ensure (h : Aligned c) (k : Nat) : Aligned (c.ensure k) where
  waiting_length := by rw [ensure_eq, length]; simp [h.waiting_length, length]
  score_length := by
    intro kind
    rw [scores_ensure, length_ensure, List.length_append, List.length_replicate, h.score_length]
    omega
  index := by
    intro j x
    rw [states_ensure, ← h.index, ensure_eq, tableAt_append_replicate]
  score_keys := by
    intro kind j t ht
    rw [scores_ensure, tableAt_append_replicate] at ht
    rw [states_ensure]
    exact h.score_keys kind j t ht

/-! ## What the calls leave behind -/

variable {past : List (ChartCall P W)}

/-- The chart holds what the calls say. -/
abbrev Records (A : ScoreAlgebra P W) (past : List (ChartCall P W)) (c : IndexedChart P W) : Prop :=
  Recorded A past c.length c.states (c.score A) c.best?

/-- A chart that nothing was done to records nothing. -/
theorem records_empty : Records A [] (empty : IndexedChart P W) := by
  refine ⟨rfl, fun _ => rfl, fun kind s => ?_, fun _ => rfl⟩
  rw [score, scores_empty]
  rfl

/-- The chart holds what the calls say, and its tables are aligned. -/
structure Keeps (A : ScoreAlgebra P W) (past : List (ChartCall P W)) (c : IndexedChart P W) :
    Prop where
  aligned : Aligned c
  records : Records A past c

namespace Keeps

/-- A call that names a state enters it; what else it changes it tells. -/
theorem enter (h : Keeps A past c) {call : ChartCall P W} (hcall : call.state? = some s)
    (hs : s.position < c.length) {d : IndexedChart P W} (haligned : Aligned d)
    (hlength : d.length = c.length) (hstates : ∀ k, d.states k = (c.entered s).states k)
    (hscore : ∀ kind t, d.score A kind t = A.sum (given (ChartCall.score? kind) (past ++ [call]) t))
    (hbest : ∀ t, d.best? t = kept A (given ChartCall.candidate? (past ++ [call]) t)) :
    Keeps A (past ++ [call]) d := by
  refine ⟨haligned, ?_, ?_, hscore, hbest⟩
  · rw [hlength, List.foldl_concat, ← h.records.length_eq, ChartCall.lengthAfter_of_state? hcall]
  · intro k
    rw [hstates, states_entered hs, h.records.states_eq, any_eraseDups, named_concat, hcall]
    by_cases hk : s.position = k
    · subst hk
      simp only [Option.filter, decide_true, if_true, Option.toList_some,
        eraseDups_concat, true_and, ite_not]
    · have hother : ¬ k = s.position := fun he => hk he.symm
      simp [Option.filter, hk, hother]

theorem ensure (h : Keeps A past c) (k : Nat) : Keeps A (past ++ [.ensure k]) (c.ensure k) := by
  refine ⟨h.aligned.ensure k, ?_, ?_, ?_, ?_⟩
  · rw [List.foldl_concat, ← h.records.length_eq]
    exact length_ensure c k
  · intro j
    rw [states_ensure, h.records.states_eq, named_concat]
    simp [ChartCall.state?]
  · intro kind s
    rw [given_silent rfl, ← h.records.score_eq, score, score, valueAt, scores_ensure,
      tableAt_append_replicate, valueAt]
  · intro s
    rw [given_silent rfl, ← h.records.best_eq, best?, best?, valueAt, ensure_eq,
      tableAt_append_replicate, valueAt]

section Named

variable (h : Keeps A past c)

include h

/-- Entering a state gives it nothing. -/
theorem score_entered {call : ChartCall P W} {kind : ScoreKind} (hquiet : call.score? kind = none)
    (t : State P W) :
    (c.entered s).score A kind t = A.sum (given (ChartCall.score? kind) (past ++ [call]) t) := by
  rw [given_silent hquiet, ← h.records.score_eq, IndexedChart.score_entered]

variable (hs : s.position < c.length)

include hs

theorem best_entered {call : ChartCall P W} (hquiet : call.candidate? = none) (t : State P W) :
    (c.entered s).best? t = kept A (given ChartCall.candidate? (past ++ [call]) t) := by
  rw [given_silent hquiet, ← h.records.best_eq, best?_entered hs]

theorem add : Keeps A (past ++ [.add s]) (c.entered s) :=
  h.enter rfl hs (h.aligned.entered hs) (length_entered c s) (fun _ => rfl)
    (fun _ => h.score_entered rfl) (h.best_entered hs rfl)

/-- The one score gets what is given, the other one is left as it is. -/
theorem addScore (kind : ScoreKind) (w : W) : Keeps A (past ++ [.addScore kind s w])
    ((c.entered s).setScores kind
      (written ((c.entered s).scores kind) s (A.add (c.score A kind s) w))) := by
  have haligned := (h.aligned.entered hs).write_scores (by rwa [length_entered])
    (any_states_entered hs) kind (A.add (c.score A kind s) w)
  refine h.enter rfl hs haligned ?_ (states_setScores _ _ _) (fun other => ?_) (fun t => ?_)
  · rw [length_setScores, length_entered]
  · by_cases hother : other = kind
    · subst hother
      have hlt : s.position < (c.scores other).length := by rwa [h.aligned.score_length]
      refine reading_concat (h.records.score_eq other) rfl fun t => ?_
      have hgiven : ChartCall.score? other (.addScore other s w) = some w := if_pos rfl
      rw [hgiven, score, scores_setScores, if_pos rfl, scores_entered]
      exact valueAt_written_value hlt A.zero (A.add · w) t
    · intro t
      have hquiet : ChartCall.score? other (.addScore kind s w) = none :=
        if_neg fun he => hother he.symm
      rw [score, scores_setScores, if_neg hother]
      exact h.score_entered hquiet t
  · rw [best?, items_setScores]
    exact h.best_entered hs rfl t

/-- An offer is kept or not; either way the best derivation is the one that the past leaves. -/
theorem offer (b : Backpointer P W) : Keeps A (past ++ [.offer s b]) (c.offer A s b).1 := by
  have hlt : s.position < (c.entered s).length := by rwa [length_entered]
  have hthere := any_states_entered hs
  have haligned := h.aligned.entered hs
  have hold : valueAt none (c.entered s).items s = c.best? s := best?_entered hs s
  rw [h.aligned.offer_eq hs]
  by_cases hbetter : ((c.best? s).all fun old => A.isBetter b.score old.score) = true
  · rw [if_pos hbetter]
    refine h.enter rfl hs (haligned.write_items hlt hthere _) ?_ ?_ (fun kind t => ?_) ?_
    · exact (length_written _).trans (length_entered c s)
    · exact states_write_items hlt hthere _
    · rw [score, scores_write_items]
      exact h.score_entered rfl t
    · refine reading_concat h.records.best_eq rfl fun t => ?_
      -- what is written is what the past and the offer leave, since the entry was empty or worse
      have hkept : some b = keepBetter A (valueAt none (c.entered s).items s) b := by
        rw [hold, keepBetter, if_pos hbetter]
      rw [hkept, ← best?_entered hs t]
      exact valueAt_written_value hlt none (keepBetter A · b) t
  · rw [if_neg hbetter]
    refine h.enter rfl hs haligned (length_entered c s) (fun _ => rfl)
      (fun _ => h.score_entered rfl) ?_
    refine reading_concat h.records.best_eq rfl fun t => ?_
    rw [best?_entered hs]
    split
    · next hst =>
      -- the offer is turned down for every spelling of the state
      have hsame : c.best? s = c.best? t := valueAt_congr none c.items hst
      show c.best? t = keepBetter A (c.best? t) b
      rw [keepBetter, ← hsame, if_neg hbetter]
    · rfl

end Named

/-- The chart contains the states that were named at their position. -/
theorem contains (h : Keeps A past c) (s : State P W) :
    c.contains s = (named past s.position).any (· == s) := by
  rw [contains_eq_any, h.records.states_eq, any_eraseDups]

/-- **One more call is one more entry of the record**, and it is answered by what is recorded. -/
theorem perform (h : Keeps A past c) (call : ChartCall P W) (hfits : call.fits c.length = true) :
    Keeps A (past ++ [call]) (c.perform A call).1 ∧
      (c.perform A call).2 = .ok (call.answer A past) := by
  cases call with
  | ensure k => exact ⟨h.ensure k, rfl⟩
  | add s =>
    have hs : s.position < c.length := ChartCall.lt_of_fits rfl hfits
    rw [IndexedChart.perform, h.aligned.add_eq hs, h.contains]
    exact ⟨h.add hs, rfl⟩
  | addScore kind s w =>
    have hs : s.position < c.length := ChartCall.lt_of_fits rfl hfits
    rw [IndexedChart.perform, h.aligned.addScore_eq hs]
    exact ⟨h.addScore hs kind w, rfl⟩
  | offer s b =>
    have hs : s.position < c.length := ChartCall.lt_of_fits rfl hfits
    refine ⟨h.offer hs b, ?_⟩
    rw [IndexedChart.perform, h.aligned.offer_eq hs, h.records.best_eq, ChartCall.answer]
    split
    · next hbetter => rw [hbetter]; rfl
    · next hbetter => rw [Bool.eq_false_iff.mpr hbetter]; rfl

end Keeps

/-- A call that does not fit is refused and leaves the chart as it was. -/
theorem perform_of_not_fits {call : ChartCall P W} (h : call.fits c.length = false) :
    c.perform A call = (c, .error .outOfRange) := by
  cases call with
  | ensure k => cases h
  | add s | addScore kind s w | offer s b =>
    have hs : c.length ≤ s.position := ChartCall.le_of_not_fits rfl h
    have hitems : c.items[s.position]? = none := List.getElem?_eq_none hs
    have hadd : c.add s = (c, .error .outOfRange) := by
      simp only [IndexedChart.add, hitems]
    simp only [IndexedChart.perform, IndexedChart.addScore, IndexedChart.offer, hadd, Except.map]

/-- A chart that is built up from nothing holds what the calls say that it did not refuse. -/
theorem keeps_performAll (A : ScoreAlgebra P W) (calls : List (ChartCall P W)) :
    Keeps A (accepted 0 calls) ((empty : IndexedChart P W).performAll A calls) :=
  foldl_of_step length (fun c call => (c.perform A call).1) (Keeps A)
    (fun h => h.records.length_eq) (fun call h hfits => (Keeps.perform h call hfits).1)
    (fun _ _ h => congrArg Prod.fst (perform_of_not_fits h)) ⟨aligned_empty, records_empty⟩ calls

end Calls
end IndexedChart
end StochasticGrammar
