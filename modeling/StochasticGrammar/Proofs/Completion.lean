import StochasticGrammar.Proofs.Shape

/-!
# What completing the scores leaves

Completion takes complete states by decreasing origin and moves the cells that wait for them. The
proof keeps a log of all moves made so far. A move leads to a state whose origin is smaller than
that of the state moved over, unless it completes a unit rule, which is never taken; so no state
moves again once it has been taken, and its inner score is final when it is used.

> `Filled`: a column is what a log of moves makes of the column it started from.

> `Taken`: the states taken so far are final, and those still pending come later in the order.

> `drained_completeScores`: states are taken turn by turn, by decreasing origin.

> `completed_completeScores`: when nothing is pending any more, the log holds the moves over every
> complete state of the column, each once, with its final score.
-/

namespace StochasticGrammar.Parser

open Relation (ReflTransGen)

variable {P W : Type}

/-! ## Moves -/

/-- A waiting cell that moves over a phrase of the given score. -/
structure Move (P W : Type) where
  cell : Cell P W
  factor : W

namespace Move

/-- The state that the cell moves to. -/
def target (m : Move P W) (k : Nat) : State P W :=
  m.cell.state.advance k

/-- What the state that the cell moves to receives. -/
def receive (A : ScoreAlgebra P W) (c : Cell P W) (m : Move P W) : Cell P W :=
  (c.addForward A (A.mul m.cell.forward m.factor)).addInner A (A.mul m.cell.inner m.factor)

@[simp] theorem receive_state (A : ScoreAlgebra P W) (c : Cell P W) (m : Move P W) :
    (receive A c m).state = c.state := rfl

end Move

/-- The moves over a complete state of the given inner score. -/
def moves (G : Grammar P W) (past : List (Column P W)) (done : State P W) (inner : W) :
    List (Move P W) :=
  (G.unitSources done.rule.lhs).flatMap fun source =>
    ((pastColumn past done.origin).waiting source.1).map fun cell =>
      ⟨cell, G.algebra.mul source.2 inner⟩

theorem isPending_iff {G : Grammar P W} {k : Nat} {s : State P W} : isPending G k s = true ↔
    s.isComplete = true ∧ s.origin < k ∧ G.isUnit s.rule = false := by
  unfold isPending
  rw [Bool.and_eq_true, Bool.and_eq_true, decide_eq_true_eq, Bool.not_eq_true', and_assoc]

variable [DecidableEq P] [DecidableEq W]

/-- A column with a move made. -/
def Move.into (A : ScoreAlgebra P W) (k : Nat) (m : Move P W) (col : Column P W) : Column P W :=
  col.alter A (m.target k) fun c => m.receive A c

theorem Move.contains_into (A : ScoreAlgebra P W) (k : Nat) (m : Move P W) (col : Column P W)
    (s : State P W) : (m.into A k col).contains s = (m.target k == s || col.contains s) :=
  Column.contains_alter A (fun c => receive_state A c m) col s

/-- A move that reaches a new state queues it, if it is complete and not of a unit rule; any other
move leaves the queue as it is. -/
theorem moveOver_cases (G : Grammar P W) (k : Nat) (agenda : Agenda P W) (m : Move P W) :
    ((agenda.column.contains (m.target k) = false ∧ (m.target k).isComplete = true ∧
          G.isUnit (m.target k).rule = false) ∧
        moveOver G k m.factor agenda m.cell
          = ⟨m.into G.algebra k agenda.column, enqueue (m.target k) agenda.pending⟩) ∨
      (¬ (agenda.column.contains (m.target k) = false ∧ (m.target k).isComplete = true ∧
          G.isUnit (m.target k).rule = false) ∧
        moveOver G k m.factor agenda m.cell
          = ⟨m.into G.algebra k agenda.column, agenda.pending⟩) := by
  have hmove : moveOver G k m.factor agenda m.cell = ⟨m.into G.algebra k agenda.column,
      if !agenda.column.contains (m.target k) && (m.target k).isComplete
        && !G.isUnit (m.target k).rule
      then enqueue (m.target k) agenda.pending else agenda.pending⟩ := rfl
  have hiff : (!agenda.column.contains (m.target k) && (m.target k).isComplete
        && !G.isUnit (m.target k).rule) = true
      ↔ agenda.column.contains (m.target k) = false ∧ (m.target k).isComplete = true ∧
          G.isUnit (m.target k).rule = false := by
    rw [Bool.and_eq_true, Bool.and_eq_true, Bool.not_eq_true', Bool.not_eq_true', and_assoc]
  rw [hmove]
  by_cases hnew : agenda.column.contains (m.target k) = false ∧ (m.target k).isComplete = true ∧
      G.isUnit (m.target k).rule = false
  · exact .inl ⟨hnew, by rw [if_pos (hiff.mpr hnew)]⟩
  · exact .inr ⟨hnew, by rw [if_neg (mt hiff.mp hnew)]⟩

/-- Completing a state makes its moves one after the other. -/
theorem completeState_eq (G : Grammar P W) (past : List (Column P W)) (k : Nat) (done : State P W)
    (agenda : Agenda P W) :
    completeState G past k done agenda
      = (moves G past done (agenda.column.inner G.algebra done)).foldl
          (fun agenda m => moveOver G k m.factor agenda m.cell) agenda := by
  unfold completeState moves
  rw [List.foldl_flatMap]
  simp only [List.foldl_map]

variable [Probability P] {solver : Solver P} {G : Grammar P W} {goal : Category}

omit [DecidableEq P] [DecidableEq W] [Probability P] in
theorem mem_waiting {col : Column P W} {x : Category} (hx : x.isTerminalObject = false)
    {c : Cell P W} : c ∈ col.waiting x ↔ c ∈ col ∧ c.state.next? = some x := by
  unfold Column.waiting
  rw [List.mem_filter]
  refine and_congr_right fun _ => ?_
  cases c.state.next? with
  | none => simp
  | some y =>
    rw [Option.any_some, Option.some.injEq]
    constructor
    · intro hyx
      exact (Category.eq_of_beq hx (BEq.symm hyx)).symm
    · rintro rfl
      exact BEq.rfl

/-- A move over a state leads from a cell at its origin that waits for a category from which a chain
of unit rules leads to the state's own. -/
theorem mem_moves [PositiveSums P] (hG : G.Compiled solver) {past : List (Column P W)}
    {done : State P W} {inner : W} {m : Move P W} (hm : m ∈ moves G past done inner) :
    m.cell ∈ pastColumn past done.origin ∧ ∃ x ∈ G.names, m.cell.state.next? = some x ∧
      done.rule.lhs ∈ G.names ∧ ReflTransGen G.UnitStep x done.rule.lhs := by
  obtain ⟨⟨x, w⟩, hsource, hm⟩ := List.mem_flatMap.mp hm
  obtain ⟨cell, hcell, rfl⟩ := List.mem_map.mp hm
  obtain ⟨hlhs, hchain⟩ := hG.mem_unitSources.mp ⟨w, hsource⟩
  have hx := hG.mem_names_of_unitStep hlhs hchain
  obtain ⟨hmem, hnext⟩ := (mem_waiting (hG.names_plain hx)).mp hcell
  exact ⟨hmem, x, hx, hnext, hlhs, hchain⟩

/-- Every cell at the origin that waits for such a category moves. -/
theorem exists_move [PositiveSums P] (hG : G.Compiled solver) {past : List (Column P W)}
    {done : State P W} (inner : W) {cell : Cell P W} {x : Category}
    (hcell : cell ∈ pastColumn past done.origin) (hnext : cell.state.next? = some x)
    (hlhs : done.rule.lhs ∈ G.names) (hchain : ReflTransGen G.UnitStep x done.rule.lhs) :
    ∃ m ∈ moves G past done inner, m.cell = cell := by
  obtain ⟨w, hw⟩ := hG.mem_unitSources.mpr ⟨hlhs, hchain⟩
  have hx := hG.names_plain (hG.mem_names_of_unitStep hlhs hchain)
  exact ⟨⟨cell, G.algebra.mul w inner⟩, List.mem_flatMap.mpr ⟨(x, w), hw,
    List.mem_map.mpr ⟨cell, (mem_waiting hx).mpr ⟨hcell, hnext⟩, rfl⟩⟩, rfl⟩

/-- The cell of a move stands in an earlier column and waits for a name. -/
structure Starts (G : Grammar P W) (past : List (Column P W)) (j : Nat) (m : Move P W) : Prop where
  mem : m.cell ∈ pastColumn past j
  next : ∃ x ∈ G.names, m.cell.state.next? = some x

/-- Where a move leads. A complete state that is reached is one of a unit rule, or it spans more
than the phrase moved over. -/
structure Lands (G : Grammar P W) (goal : Category) (k j : Nat) (s : State P W) : Prop where
  fits : Fits G goal k s
  origin_le : s.origin ≤ j
  origin_lt : isPending G k s = true → s.origin < j

theorem lands_of_next (hG : G.Compiled solver) {j k : Nat} (hjk : j < k) {s : State P W}
    (hfits : Fits G goal j s) {x : Category} (hx : x ∈ G.names) (hnext : s.next? = some x) :
    Lands G goal k j (s.advance k) := by
  refine ⟨hfits.advance hnext hjk, hfits.origin_le, fun hpending => ?_⟩
  -- a state that has found something spans something; one that has not makes a unit rule complete
  rcases Nat.eq_zero_or_pos s.dot with hdot | hdot
  · obtain ⟨hcomplete, _, hunit⟩ := isPending_iff.mp hpending
    have hlen : s.rule.rhs.length ≤ 1 := by
      simpa [State.isComplete, State.advance, hdot] using hcomplete
    obtain ⟨_, hrhs⟩ := State.next?_eq_some hnext
    have hsingle : s.rule.rhs = [x] := by
      rwa [hdot, List.take_zero, List.nil_append, Nat.zero_add, List.drop_eq_nil_of_le hlen] at hrhs
    have hisUnit : G.isUnit (s.advance k).rule = true := by
      show G.isUnit s.rule = true
      unfold Grammar.isUnit
      rw [hsingle]
      exact hG.isNonterminal_iff.mpr hx
    rw [hisUnit] at hunit
    cases hunit
  · exact hfits.origin_lt hdot

theorem Starts.lands (hG : G.Compiled solver) {past : List (Column P W)}
    (hpast : PastShaped G goal past) {j k : Nat} (hjk : j < k) {m : Move P W}
    (h : Starts G past j m) : Lands G goal k j (m.target k) := by
  obtain ⟨x, hx, hnext⟩ := h.next
  exact lands_of_next hG hjk ((hpast j).fits m.cell h.mem) hx hnext

/-! ## Logs -/

/-- The column is what the moves of a log make of another one. -/
structure Filled (G : Grammar P W) (goal : Category) (k : Nat) (base : Column P W)
    (log : List (Move P W)) (col : Column P W) : Prop where
  shaped : Shaped G goal k col
  mem_states : ∀ t, t ∈ col.states ↔ t ∈ base.states ∨ ∃ m ∈ log, m.target k = t
  cell : ∀ t, ChartRule G goal t.rule → col.cell G.algebra t
    = (log.filter fun m => decide (m.target k = t)).foldl (Move.receive G.algebra)
        (base.cell G.algebra t)

theorem Filled.refl {k : Nat} {base : Column P W} (h : Shaped G goal k base) :
    Filled G goal k base [] base :=
  ⟨h, fun t => by simp, fun t _ => rfl⟩

/-- One more move. -/
theorem Filled.move (hG : G.Compiled solver) {k : Nat} {base col : Column P W}
    {log : List (Move P W)} (h : Filled G goal k base log col) {m : Move P W}
    (hm : Fits G goal k (m.target k)) :
    Filled G goal k base (log ++ [m]) (m.into G.algebra k col) := by
  unfold Move.into
  have hf : ∀ c : Cell P W, (m.receive G.algebra c).state = c.state := fun c => rfl
  refine ⟨h.shaped.alter hm hf, fun t => ?_, fun t ht => ?_⟩
  · rw [h.shaped.mem_states_alter hG hm.rule hf, h.mem_states]
    simp only [List.mem_append, List.mem_singleton, or_and_right, exists_or,
      exists_eq_left, or_assoc]
    rw [eq_comm (a := t)]
  · rw [Column.cell_alter G.algebra (discrete_chartRule hG) hf col hm.rule ht, h.cell t ht,
      List.filter_append, List.foldl_append]
    by_cases heq : m.target k = t
    · rw [if_pos heq, List.filter_singleton, decide_eq_true heq]
      rfl
    · rw [if_neg heq, List.filter_singleton, decide_eq_false heq]
      rfl

/-! ## Order -/

/-- The states taken so far, and those still pending. -/
structure Taken (G : Grammar P W) (k : Nat) (taken : List (State P W × W))
    (agenda : Agenda P W) : Prop where
  nodup : agenda.pending.Nodup
  sorted : agenda.pending.Pairwise fun a b => b.origin ≤ a.origin
  mem_pending : ∀ s, s ∈ agenda.pending ↔
    s ∈ agenda.column.states ∧ isPending G k s = true ∧ s ∉ taken.map (·.1)
  floor : ∀ e ∈ taken, ∀ s ∈ agenda.pending, s.origin ≤ e.1.origin
  taken_nodup : (taken.map (·.1)).Nodup
  taken_mem : ∀ e ∈ taken, e.1 ∈ agenda.column.states ∧ isPending G k e.1 = true
  /-- The inner score of a state that has been taken is final. -/
  frozen : ∀ e ∈ taken, agenda.column.inner G.algebra e.1 = e.2

omit [DecidableEq P] [DecidableEq W] in
/-- A pending state that is reached starts before everything that has been taken. -/
theorem Lands.ne_of_pending {k j : Nat} {s t : State P W} (h : Lands G goal k j s)
    (hpending : isPending G k s = true) (ht : j ≤ t.origin) : s ≠ t := by
  rintro rfl
  exact Nat.not_lt.mpr ht (h.origin_lt hpending)

section Moving

variable {k j : Nat} {taken : List (State P W × W)} {agenda : Agenda P W} {m : Move P W}

theorem mem_states_into (hG : G.Compiled solver) (hshaped : Shaped G goal k agenda.column)
    (hm : Lands G goal k j (m.target k)) (s : State P W) :
    s ∈ Column.states (m.into G.algebra k agenda.column)
      ↔ s ∈ agenda.column.states ∨ s = m.target k :=
  hshaped.mem_states_alter hG hm.fits.rule (fun c => m.receive_state G.algebra c) s

/-- What has been taken is still there after a move, with the inner score that it had. -/
theorem Taken.kept (hG : G.Compiled solver) (hshaped : Shaped G goal k agenda.column)
    (h : Taken G k taken agenda) (hm : Lands G goal k j (m.target k))
    (hj : ∀ e ∈ taken, j ≤ e.1.origin) {e : State P W × W} (he : e ∈ taken) :
    (e.1 ∈ Column.states (m.into G.algebra k agenda.column) ∧ isPending G k e.1 = true) ∧
      (m.into G.algebra k agenda.column).inner G.algebra e.1 = e.2 := by
  obtain ⟨hstates, hpending⟩ := h.taken_mem e he
  refine ⟨⟨(mem_states_into hG hshaped hm _).mpr (Or.inl hstates), hpending⟩, ?_⟩
  have hrule : ChartRule G goal e.1.rule := by
    obtain ⟨c, hc, hce⟩ := List.mem_map.mp hstates
    rw [← hce]
    exact (hshaped.fits c hc).rule
  have hne : m.target k ≠ e.1 := by
    intro heq
    exact hm.ne_of_pending (heq ▸ hpending) (hj e he) heq
  unfold Move.into
  rw [Column.inner_eq_cell, Column.cell_alter G.algebra (discrete_chartRule hG)
    (fun c => m.receive_state G.algebra c) _ hm.fits.rule hrule, if_neg hne, ← Column.inner_eq_cell]
  exact h.frozen e he

/-- A new state that is to be taken is queued. -/
theorem Taken.push (hG : G.Compiled solver) (hshaped : Shaped G goal k agenda.column)
    (h : Taken G k taken agenda) (hm : Lands G goal k j (m.target k))
    (hj : ∀ e ∈ taken, j ≤ e.1.origin) (hnew : m.target k ∉ agenda.column.states)
    (hpending : isPending G k (m.target k) = true) :
    Taken G k taken ⟨m.into G.algebra k agenda.column, enqueue (m.target k) agenda.pending⟩ := by
  have hmem := mem_states_into hG hshaped hm
  have hperm := enqueue_perm (m.target k) agenda.pending
  refine ⟨?_, pairwise_enqueue _ h.sorted, fun s => ?_, fun e he s hs => ?_, h.taken_nodup,
    fun e he => (h.kept hG hshaped hm hj he).1, fun e he => (h.kept hG hshaped hm hj he).2⟩
  · refine hperm.nodup_iff.mpr (List.nodup_cons.mpr ⟨fun hin => ?_, h.nodup⟩)
    exact hnew ((h.mem_pending _).mp hin).1
  · rw [hperm.mem_iff, List.mem_cons, h.mem_pending]
    constructor
    · rintro (rfl | ⟨hs, hp, hn⟩)
      · refine ⟨(hmem _).mpr (Or.inr rfl), hpending, fun hin => ?_⟩
        obtain ⟨e, he, heq⟩ := List.mem_map.mp hin
        exact hm.ne_of_pending hpending (hj e he) heq.symm
      · exact ⟨(hmem _).mpr (Or.inl hs), hp, hn⟩
    · rintro ⟨hs, hp, hn⟩
      rcases (hmem _).mp hs with hs | rfl
      · exact Or.inr ⟨hs, hp, hn⟩
      · exact Or.inl rfl
  · rcases List.mem_cons.mp (hperm.mem_iff.mp hs) with rfl | hs
    · exact Nat.le_trans hm.origin_le (hj e he)
    · exact h.floor e he s hs

/-- Nothing is queued for a state that is known or not to be taken. -/
theorem Taken.keep (hG : G.Compiled solver) (hshaped : Shaped G goal k agenda.column)
    (h : Taken G k taken agenda) (hm : Lands G goal k j (m.target k))
    (hj : ∀ e ∈ taken, j ≤ e.1.origin)
    (hknown : isPending G k (m.target k) = true → m.target k ∈ agenda.column.states) :
    Taken G k taken ⟨m.into G.algebra k agenda.column, agenda.pending⟩ := by
  have hmem := mem_states_into hG hshaped hm
  refine ⟨h.nodup, h.sorted, fun s => ?_, h.floor, h.taken_nodup,
    fun e he => (h.kept hG hshaped hm hj he).1, fun e he => (h.kept hG hshaped hm hj he).2⟩
  rw [h.mem_pending]
  constructor
  · rintro ⟨hs, hrest⟩
    exact ⟨(hmem _).mpr (Or.inl hs), hrest⟩
  · rintro ⟨hs, hp, hn⟩
    rcases (hmem _).mp hs with hs | rfl
    · exact ⟨hs, hp, hn⟩
    · exact ⟨hknown hp, hp, hn⟩

/-- A move over a state keeps the order, if the state is the last one taken. -/
theorem Taken.move (hG : G.Compiled solver) (hshaped : Shaped G goal k agenda.column)
    (h : Taken G k taken agenda) (hm : Lands G goal k j (m.target k)) (hjk : j < k)
    (hj : ∀ e ∈ taken, j ≤ e.1.origin) :
    Taken G k taken (moveOver G k m.factor agenda m.cell) := by
  have hcontains := hshaped.contains_iff_mem_states hG hm.fits.rule
  have horigin : (m.target k).origin < k := Nat.lt_of_le_of_lt hm.origin_le hjk
  rcases moveOver_cases G k agenda m with ⟨⟨hnew, hcomplete, hunit⟩, hmove⟩ | ⟨hold, hmove⟩ <;>
    rw [hmove]
  · refine h.push hG hshaped hm hj ?_ (isPending_iff.mpr ⟨hcomplete, horigin, hunit⟩)
    rw [← hcontains, hnew]
    exact Bool.false_ne_true
  · refine h.keep hG hshaped hm hj fun hpending => ?_
    obtain ⟨hcomplete, _, hunit⟩ := isPending_iff.mp hpending
    rw [← hcontains, ← Bool.not_eq_false]
    exact fun hnew => hold ⟨hnew, hcomplete, hunit⟩

omit [Probability P] in
/-- The first pending state is taken: it starts latest, and its score is the one it has now. -/
theorem Taken.pop {col : Column P W} {done : State P W} {rest : List (State P W)}
    (h : Taken G k taken ⟨col, done :: rest⟩) :
    Taken G k (taken ++ [(done, col.inner G.algebra done)]) ⟨col, rest⟩ := by
  obtain ⟨hdone, hnodup⟩ := List.nodup_cons.mp h.nodup
  obtain ⟨hfirst, hsorted⟩ := List.pairwise_cons.mp h.sorted
  obtain ⟨hstates, hpending, hnew⟩ := (h.mem_pending done).mp List.mem_cons_self
  refine ⟨hnodup, hsorted, fun s => ?_, fun e he s hs => ?_, ?_, fun e he => ?_, fun e he => ?_⟩
  · have hmem := h.mem_pending s
    rw [List.map_append, List.mem_append, not_or, List.map_singleton, List.mem_singleton]
    constructor
    · intro hs
      obtain ⟨hcol, hp, hn⟩ := hmem.mp (List.mem_cons_of_mem _ hs)
      refine ⟨hcol, hp, hn, ?_⟩
      rintro rfl
      exact hdone hs
    · rintro ⟨hcol, hp, hn, hne⟩
      exact (List.mem_cons.mp (hmem.mpr ⟨hcol, hp, hn⟩)).resolve_left hne
  · rcases List.mem_append.mp he with he | he
    · exact h.floor e he s (List.mem_cons_of_mem _ hs)
    · rw [List.mem_singleton.mp he]
      exact hfirst s hs
  · rw [List.map_append, List.nodup_append']
    refine ⟨h.taken_nodup, List.nodup_singleton _, fun s hs hs' => ?_⟩
    rw [List.map_singleton, List.mem_singleton] at hs'
    rw [hs'] at hs
    exact hnew hs
  · rcases List.mem_append.mp he with he | he
    · exact h.taken_mem e he
    · rw [List.mem_singleton.mp he]
      exact ⟨hstates, hpending⟩
  · rcases List.mem_append.mp he with he | he
    · exact h.frozen e he
    · rw [List.mem_singleton.mp he]

end Moving

/-! ## Rounds -/

/-- How many cells of earlier columns have not moved into a column yet. -/
def room (past : List (Column P W)) (k : Nat) (col : Column P W) : Nat :=
  (past.flatten.filter fun c => !col.contains (c.state.advance k)).length

omit [DecidableEq P] [DecidableEq W] [Probability P] in
theorem mem_flatten_of_mem_pastColumn {past : List (Column P W)} {j : Nat} {c : Cell P W}
    (h : c ∈ pastColumn past j) : c ∈ past.flatten := by
  unfold pastColumn at h
  cases hcol : past[j]? with
  | none =>
    rw [hcol] at h
    cases h
  | some col =>
    rw [hcol] at h
    exact List.mem_flatten.mpr ⟨col, List.mem_of_getElem? hcol, h⟩

omit [DecidableEq P] [DecidableEq W] [Probability P] in
theorem countStates_eq (past : List (Column P W)) : countStates past = past.flatten.length := by
  induction past with
  | nil => rfl
  | cons col past ih => rw [countStates, ih, List.flatten_cons, List.length_append]

omit [Probability P] in
theorem room_into (k : Nat) (past : List (Column P W)) (col : Column P W) (m : Move P W) :
    room past k (m.into G.algebra k col)
      = ((past.flatten.filter fun c => !col.contains (c.state.advance k)).filter
          fun c => !(m.target k == c.state.advance k)).length := by
  unfold room
  rw [List.filter_filter]
  refine congrArg List.length (List.filter_congr fun c _ => ?_)
  rw [m.contains_into, Bool.not_or]

omit [Probability P] in
theorem room_into_le (k : Nat) (past : List (Column P W)) (col : Column P W) (m : Move P W) :
    room past k (m.into G.algebra k col) ≤ room past k col := by
  rw [room_into]
  exact List.length_filter_le _ _

omit [Probability P] in
/-- A cell that moves to a new state is counted off the room. -/
theorem room_into_lt {k j : Nat} {past : List (Column P W)} {col : Column P W} {m : Move P W}
    (hm : m.cell ∈ pastColumn past j) (hnew : col.contains (m.target k) = false) :
    room past k (m.into G.algebra k col) < room past k col := by
  rw [room_into]
  refine List.length_filter_lt_length_iff_exists.mpr ⟨m.cell, List.mem_filter.mpr
    ⟨mem_flatten_of_mem_pastColumn hm, ?_⟩, ?_⟩
  · rw [show m.cell.state.advance k = m.target k from rfl, hnew]
    rfl
  · show ¬ (!(m.target k == m.target k)) = true
    rw [BEq.rfl]
    exact Bool.false_ne_true

omit [Probability P] in
/-- A move queues a state only if it uses up some room. -/
theorem potential_moveOver (k : Nat) {past : List (Column P W)} {j : Nat} (agenda : Agenda P W)
    {m : Move P W} (hm : m.cell ∈ pastColumn past j) :
    (moveOver G k m.factor agenda m.cell).pending.length
        + room past k (moveOver G k m.factor agenda m.cell).column
      ≤ agenda.pending.length + room past k agenda.column := by
  rcases moveOver_cases G k agenda m with ⟨⟨hnew, _⟩, hmove⟩ | ⟨_, hmove⟩ <;> rw [hmove]
  · have hlt := room_into_lt (G := G) hm hnew
    have hlen : (enqueue (m.target k) agenda.pending).length = agenda.pending.length + 1 :=
      (enqueue_perm _ _).length_eq
    dsimp only
    omega
  · exact Nat.add_le_add_left (room_into_le k past agenda.column m) _

/-- What a column under completion satisfies after some states have been taken. -/
structure Draining (G : Grammar P W) (goal : Category) (past : List (Column P W)) (k : Nat)
    (base : Column P W) (log : List (Move P W)) (taken : List (State P W × W))
    (agenda : Agenda P W) : Prop where
  filled : Filled G goal k base log agenda.column
  taken : Taken G k taken agenda

theorem Draining.foldl_moves (hG : G.Compiled solver) {past : List (Column P W)}
    (hpast : PastShaped G goal past) {k j : Nat} (hjk : j < k) {base : Column P W}
    {log ms : List (Move P W)} {taken : List (State P W × W)} {agenda : Agenda P W}
    (h : Draining G goal past k base log taken agenda) (hj : ∀ e ∈ taken, j ≤ e.1.origin)
    (hms : ∀ m ∈ ms, Starts G past j m) :
    Draining G goal past k base (log ++ ms) taken
        (ms.foldl (fun agenda m => moveOver G k m.factor agenda m.cell) agenda) ∧
      (ms.foldl (fun agenda m => moveOver G k m.factor agenda m.cell) agenda).pending.length
          + room past k
              (ms.foldl (fun agenda m => moveOver G k m.factor agenda m.cell) agenda).column
        ≤ agenda.pending.length + room past k agenda.column := by
  induction ms generalizing log agenda with
  | nil => exact ⟨by simpa using h, Nat.le_refl _⟩
  | cons m ms ih =>
    have hm := hms m List.mem_cons_self
    have hlands := hm.lands hG hpast hjk
    have hstep : Draining G goal past k base (log ++ [m]) taken
        (moveOver G k m.factor agenda m.cell) :=
      ⟨h.filled.move hG hlands.fits, h.taken.move hG h.filled.shaped hlands hjk hj⟩
    obtain ⟨hrest, hle⟩ := ih hstep fun n hn => hms n (List.mem_cons_of_mem _ hn)
    rw [List.append_assoc] at hrest
    exact ⟨hrest, Nat.le_trans hle (potential_moveOver k agenda hm.mem)⟩

/-- Taking the next state: its moves are logged, with a score that is final. -/
theorem Draining.completeState [PositiveSums P] (hG : G.Compiled solver) {past : List (Column P W)}
    (hpast : PastShaped G goal past) {k : Nat} {base : Column P W} {taken : List (State P W × W)}
    {col : Column P W} {done : State P W} {rest : List (State P W)}
    (h : Draining G goal past k base (taken.flatMap fun e => moves G past e.1 e.2) taken
      ⟨col, done :: rest⟩) :
    Draining G goal past k base
        ((taken ++ [(done, col.inner G.algebra done)]).flatMap fun e => moves G past e.1 e.2)
        (taken ++ [(done, col.inner G.algebra done)])
        (completeState G past k done ⟨col, rest⟩) ∧
      (completeState G past k done ⟨col, rest⟩).pending.length
          + room past k (completeState G past k done ⟨col, rest⟩).column
        ≤ rest.length + room past k col := by
  have hpending := ((h.taken.mem_pending done).mp List.mem_cons_self).2.1
  have hlt : done.origin < k := (isPending_iff.mp hpending).2.1
  have hpopped : Draining G goal past k base (taken.flatMap fun e => moves G past e.1 e.2)
      (taken ++ [(done, col.inner G.algebra done)]) ⟨col, rest⟩ := ⟨h.filled, h.taken.pop⟩
  rw [completeState_eq, List.flatMap_append, List.flatMap_singleton]
  refine hpopped.foldl_moves hG hpast hlt (fun e he => ?_) fun m hm => ?_
  · rcases List.mem_append.mp he with he | he
    · exact h.taken.floor e he done List.mem_cons_self
    · rw [List.mem_singleton.mp he]
  · obtain ⟨hmem, x, hx, hnext, _⟩ := mem_moves hG hm
    exact ⟨hmem, x, hx, hnext⟩

/-! ## Turns -/

/-- One turn: the state that is taken, the column it is taken from, and the states that become
pending while it is completed. -/
structure Turn (P W : Type) where
  state : State P W
  column : Column P W
  pushed : List (State P W)

/-- Pending states are taken one at a time, and when none is left, the column is this one. -/
inductive Turns (G : Grammar P W) (past : List (Column P W)) (k : Nat) :
    Agenda P W → List (Turn P W) → Column P W → Prop
  | done {col : Column P W} : Turns G past k ⟨col, []⟩ [] col
  | take {col out : Column P W} {s : State P W} {rest pushed : List (State P W)}
      {turns : List (Turn P W)}
      (hpushed : (completeState G past k s ⟨col, rest⟩).pending.Perm (pushed ++ rest))
      (h : Turns G past k (completeState G past k s ⟨col, rest⟩) turns out) :
      Turns G past k ⟨col, s :: rest⟩ (⟨s, col, pushed⟩ :: turns) out

omit [Probability P] in
/-- Completing a state takes no other state off the queue. -/
theorem exists_pushed (G : Grammar P W) (past : List (Column P W)) (k : Nat) (done : State P W)
    (agenda : Agenda P W) :
    ∃ pushed, (completeState G past k done agenda).pending.Perm (pushed ++ agenda.pending) := by
  rw [completeState_eq]
  generalize moves G past done (agenda.column.inner G.algebra done) = ms
  induction ms generalizing agenda with
  | nil => exact ⟨[], .refl _⟩
  | cons m ms ih =>
    obtain ⟨pushed, hperm⟩ := ih (moveOver G k m.factor agenda m.cell)
    rw [List.foldl_cons]
    rcases moveOver_cases G k agenda m with ⟨_, hmove⟩ | ⟨_, hmove⟩ <;>
      rw [hmove] at hperm <;> rw [hmove]
    · refine ⟨pushed ++ [m.target k], hperm.trans ?_⟩
      rw [List.append_assoc]
      exact (enqueue_perm _ _).append_left pushed
    · exact ⟨pushed, hperm⟩

omit [Probability P] in
/-- **What is pending is taken**: the states that were pending at the start or became so later are
those that are taken. -/
theorem Turns.perm {past : List (Column P W)} {k : Nat} {agenda : Agenda P W}
    {turns : List (Turn P W)} {out : Column P W} (h : Turns G past k agenda turns out) :
    (agenda.pending ++ turns.flatMap (·.pushed)).Perm (turns.map (·.state)) := by
  induction h with
  | done => exact .refl _
  | @take col out s rest pushed turns hpushed _ ih =>
    rw [List.flatMap_cons, List.map_cons, List.cons_append]
    refine .cons s (.trans ?_ ih)
    rw [← List.append_assoc]
    exact (List.perm_append_comm.trans hpushed.symm).append_right _

/-- What completing the scores leaves of a column: the moves over every complete state that is to be
taken, each once, with its final score. -/
structure Completed (G : Grammar P W) (goal : Category) (past : List (Column P W)) (k : Nat)
    (base col : Column P W) (order : List (State P W)) : Prop where
  nodup : order.Nodup
  mem_order : ∀ s, s ∈ order ↔ s ∈ col.states ∧ isPending G k s = true
  filled : Filled G goal k base
    (order.flatMap fun d => moves G past d (col.inner G.algebra d)) col

theorem Draining.completed {past : List (Column P W)} {k : Nat} {base : Column P W}
    {taken : List (State P W × W)} {agenda : Agenda P W}
    (h : Draining G goal past k base (taken.flatMap fun e => moves G past e.1 e.2) taken agenda)
    (hnil : agenda.pending = []) :
    Completed G goal past k base agenda.column (taken.map (·.1)) := by
  refine ⟨h.taken.taken_nodup, fun s => ⟨fun hs => ?_, fun hs => ?_⟩, ?_⟩
  · obtain ⟨e, he, rfl⟩ := List.mem_map.mp hs
    exact h.taken.taken_mem e he
  · by_contra hnot
    have hmem := (h.taken.mem_pending s).mpr ⟨hs.1, hs.2, hnot⟩
    rw [hnil] at hmem
    cases hmem
  · have hlog : (taken.flatMap fun e => moves G past e.1 (agenda.column.inner G.algebra e.1))
        = taken.flatMap fun e => moves G past e.1 e.2 :=
      List.flatMap_congr fun e he => by rw [h.taken.frozen e he]
    rw [List.flatMap_map, hlog]
    exact h.filled

/-- The turns that are left once some states have been taken, and the column that they end with. -/
structure Drained (G : Grammar P W) (goal : Category) (past : List (Column P W)) (k : Nat)
    (base : Column P W) (taken : List (State P W)) (agenda : Agenda P W) (turns : List (Turn P W))
    (out : Column P W) : Prop where
  trace : Turns G past k agenda turns out
  completed : Completed G goal past k base out (taken ++ turns.map (·.state))
  sorted : turns.Pairwise fun t u => u.state.origin ≤ t.state.origin
  floor : ∀ s ∈ taken, ∀ t ∈ turns, t.state.origin ≤ s.origin

theorem Draining.drained_nil {past : List (Column P W)} {k : Nat} {base col : Column P W}
    {taken : List (State P W × W)} (h : Draining G goal past k base
      (taken.flatMap fun e => moves G past e.1 e.2) taken ⟨col, []⟩) :
    Drained G goal past k base (taken.map (·.1)) ⟨col, []⟩ [] col := by
  refine ⟨.done, ?_, .nil, fun s _ t ht => (by cases ht)⟩
  rw [List.map_nil, List.append_nil]
  exact h.completed rfl

theorem Draining.drain [PositiveSums P] (hG : G.Compiled solver) {past : List (Column P W)}
    (hpast : PastShaped G goal past) {k : Nat} {base : Column P W} {fuel : Nat}
    {taken : List (State P W × W)} {col : Column P W} {pending : List (State P W)}
    (h : Draining G goal past k base (taken.flatMap fun e => moves G past e.1 e.2) taken
      ⟨col, pending⟩)
    (hfuel : pending.length + room past k col ≤ fuel) :
    ∃ turns, Drained G goal past k base (taken.map (·.1)) ⟨col, pending⟩ turns
      (drain G past k fuel ⟨col, pending⟩) := by
  induction fuel generalizing taken col pending with
  | zero =>
    have hnil : pending = [] := List.eq_nil_of_length_eq_zero (by omega)
    subst hnil
    exact ⟨[], h.drained_nil⟩
  | succ fuel ih =>
    cases pending with
    | nil => exact ⟨[], h.drained_nil⟩
    | cons done rest =>
      -- taking a state uses up fuel, as what it queues uses up room
      obtain ⟨hnext, hle⟩ := h.completeState hG hpast
      rw [List.length_cons] at hfuel
      obtain ⟨turns, hturns⟩ := ih hnext (Nat.le_trans hle (by omega))
      obtain ⟨pushed, hpushed⟩ := exists_pushed G past k done ⟨col, rest⟩
      have htaken : (taken ++ [(done, col.inner G.algebra done)]).map (·.1)
          = taken.map (·.1) ++ [done] := List.map_append
      have hcompleted := hturns.completed
      have hfloor := hturns.floor
      rw [htaken] at hcompleted hfloor
      refine ⟨⟨done, col, pushed⟩ :: turns, .take hpushed hturns.trace, ?_,
        List.pairwise_cons.mpr ⟨hfloor done (by simp), hturns.sorted⟩, fun s hs t ht => ?_⟩
      · rwa [List.append_assoc] at hcompleted
      · rcases List.mem_cons.mp ht with rfl | ht
        · obtain ⟨e, he, rfl⟩ := List.mem_map.mp hs
          exact h.taken.floor e he done List.mem_cons_self
        · exact hfloor s (List.mem_append_left _ hs) t ht

/-! ## The start -/

omit [DecidableEq P] [DecidableEq W] [Probability P] in
/-- Queueing states one by one leaves them all in the queue, by decreasing origin. -/
theorem foldl_enqueue (ss q : List (State P W)) (hq : q.Pairwise fun a b => b.origin ≤ a.origin) :
    (ss.foldl (fun q s => enqueue s q) q).Perm (ss ++ q) ∧
      (ss.foldl (fun q s => enqueue s q) q).Pairwise fun a b => b.origin ≤ a.origin := by
  induction ss generalizing q with
  | nil => exact ⟨.refl _, hq⟩
  | cons s ss ih =>
    obtain ⟨hperm, hsorted⟩ := ih (enqueue s q) (pairwise_enqueue s hq)
    refine ⟨hperm.trans ?_, hsorted⟩
    exact ((enqueue_perm s q).append_left ss).trans List.perm_middle

/-- The states of a column that are pending at the start. -/
def pendingOf (G : Grammar P W) (k : Nat) (col : Column P W) : List (State P W) :=
  (col.states.filter (isPending G k)).foldl (fun q s => enqueue s q) []

/-- **What completing the scores does**: it takes turns by decreasing origin until nothing is
pending. -/
theorem drained_completeScores [PositiveSums P] (hG : G.Compiled solver)
    {past : List (Column P W)} (hpast : PastShaped G goal past) {k : Nat} {base : Column P W}
    (hbase : Shaped G goal k base) :
    ∃ turns, Drained G goal past k base [] ⟨base, pendingOf G k base⟩ turns
      (completeScores G past k base) := by
  unfold completeScores pendingOf
  obtain ⟨hperm, hsorted⟩ := foldl_enqueue (base.states.filter (isPending G k)) [] List.Pairwise.nil
  rw [List.append_nil] at hperm
  have hstates : base.states.Nodup := by
    unfold Column.states
    rw [List.nodup_iff_pairwise_ne, List.pairwise_map]
    exact hbase.distinct.imp fun {a b} hab heq => hab (by rw [heq]; exact BEq.rfl)
  have hstart : Draining G goal past k base
      (([] : List (State P W × W)).flatMap fun e => moves G past e.1 e.2) []
      ⟨base, (base.states.filter (isPending G k)).foldl (fun q s => enqueue s q) []⟩ := by
    refine ⟨.refl hbase, hperm.nodup_iff.mpr (hstates.filter _), hsorted, fun s => ?_,
      fun e he => (by cases he), List.nodup_nil, fun e he => (by cases he),
      fun e he => (by cases he)⟩
    rw [hperm.mem_iff, List.mem_filter]
    simp
  refine hstart.drain hG hpast ?_
  have hpending : (base.states.filter (isPending G k)).length ≤ base.length := by
    refine (List.length_filter_le _ _).trans ?_
    rw [Column.states, List.length_map]
  have hroom : room past k base ≤ countStates past := by
    rw [countStates_eq]
    exact List.length_filter_le _ _
  rw [hperm.length_eq]
  omega

/-- **What completing the scores leaves.** -/
theorem completed_completeScores [PositiveSums P] (hG : G.Compiled solver)
    {past : List (Column P W)} (hpast : PastShaped G goal past) {k : Nat} {base : Column P W}
    (hbase : Shaped G goal k base) :
    ∃ order, Completed G goal past k base (completeScores G past k base) order := by
  obtain ⟨turns, h⟩ := drained_completeScores hG hpast hbase
  exact ⟨_, h.completed⟩

end StochasticGrammar.Parser
