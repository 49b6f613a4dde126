import StochasticGrammar.Chart.Indexed
import StochasticGrammar.Proofs.Columns
import StochasticGrammar.Proofs.Relaxation
import StochasticGrammar.Proofs.Repetition
import StochasticGrammar.Proofs.Steps

/-!
# Charts and the calls that made them

What a chart holds is a matter of the calls that it did not refuse: which states they name and in
which order, and what they give for each state. These are read off the calls themselves (`named`,
`given`), with no chart in sight, and the charts of columns are measured against them here.

> `foldl_of_step`: what one call keeps, a run of calls keeps; a refused call does not count.

> `kept_eq_unbeaten`: the derivation that is kept is the first one that no other one beats.

> `Chart.Records.perform`: one more call is one more entry of the record.
-/

namespace StochasticGrammar

variable {P W : Type}

namespace ChartCall

/-- The state that a call names. -/
def state? : ChartCall P W → Option (State P W)
  | ensure _ => none
  | add s | addScore _ s _ | offer s _ => some s

/-- What a call gives for a score of its state. -/
def score? (kind : ScoreKind) : ChartCall P W → Option W
  | addScore other _ w => if other = kind then some w else none
  | _ => none

/-- The derivation of its state that a call offers. -/
def candidate? : ChartCall P W → Option (Backpointer P W)
  | offer _ b => some b
  | _ => none

/-- Whether a chart of that length has the position that a call needs. -/
def fits (n : Nat) (call : ChartCall P W) : Bool :=
  call.state?.all fun s => decide (s.position < n)

theorem lt_of_fits {call : ChartCall P W} {s : State P W} (h : call.state? = some s) {n : Nat}
    (hfits : call.fits n = true) : s.position < n := by
  simpa [fits, h] using hfits

theorem le_of_not_fits {call : ChartCall P W} {s : State P W} (h : call.state? = some s) {n : Nat}
    (hfits : call.fits n = false) : n ≤ s.position := by
  simpa [fits, h] using hfits

/-- The length of the chart after a call. -/
def lengthAfter (n : Nat) : ChartCall P W → Nat
  | ensure k => max n (k + 1)
  | _ => n

theorem eq_ensure_of_state? {call : ChartCall P W} (h : call.state? = none) :
    ∃ k, call = .ensure k := by
  cases call with
  | ensure k => exact ⟨k, rfl⟩
  | _ => cases h

/-- Only `ensure` makes a chart longer. -/
theorem lengthAfter_of_state? {call : ChartCall P W} {s : State P W} (h : call.state? = some s)
    (n : Nat) : call.lengthAfter n = n := by
  cases call with
  | ensure k => cases h
  | _ => rfl

end ChartCall

/-- The calls that a chart takes, which has a given length before the first of them. -/
def accepted : Nat → List (ChartCall P W) → List (ChartCall P W)
  | _, [] => []
  | n, call :: calls =>
    if call.fits n then call :: accepted (call.lengthAfter n) calls else accepted n calls

/-- **What one call keeps, a run of calls keeps**, whatever the chart is made of: a call that fits
is added to the past, and one that does not fit is not. -/
theorem foldl_of_step {C : Type} (length : C → Nat) (step : C → ChartCall P W → C)
    (Keeps : List (ChartCall P W) → C → Prop)
    (hlength : ∀ {past c}, Keeps past c → length c = past.foldl ChartCall.lengthAfter 0)
    (hstep : ∀ {past c} call, Keeps past c → call.fits (length c) = true →
      Keeps (past ++ [call]) (step c call))
    (hrefused : ∀ c call, ChartCall.fits (length c) call = false → step c call = c)
    {past : List (ChartCall P W)} {c : C} (h : Keeps past c) (calls : List (ChartCall P W)) :
    Keeps (past ++ accepted (length c) calls) (calls.foldl step c) := by
  induction calls generalizing past c with
  | nil => simpa [accepted] using h
  | cons call calls ih =>
    rw [List.foldl_cons, accepted]
    by_cases hfits : call.fits (length c) = true
    · have hnext := hstep call h hfits
      -- the length is a matter of the past, so the rest is judged from where this call has led
      have hlonger : length (step c call) = call.lengthAfter (length c) := by
        rw [hlength hnext, hlength h, List.foldl_concat]
      have hrest := ih hnext
      rw [hlonger, List.append_assoc] at hrest
      rw [if_pos hfits]
      exact hrest
    · rw [if_neg hfits, hrefused c call (Bool.eq_false_iff.mpr hfits)]
      exact ih h

/-! ## What the calls say -/

/-- The states of a position that the calls name, in order and as often as they do. -/
def named (past : List (ChartCall P W)) (k : Nat) : List (State P W) :=
  (past.filterMap ChartCall.state?).filter fun s => decide (s.position = k)

theorem named_concat (past : List (ChartCall P W)) (call : ChartCall P W) (k : Nat) :
    named (past ++ [call]) k
      = named past k ++ (call.state?.filter fun s => decide (s.position = k)).toList := by
  unfold named
  rw [List.filterMap_append, List.filter_append]
  cases h : call.state? with
  | none => simp [h]
  | some s =>
    by_cases hk : s.position = k
    · simp [h, hk, Option.filter]
    · simp [h, hk, Option.filter]

variable [DecidableEq P] [DecidableEq W]

/-- What the calls give for a state, in order. -/
def given {β : Type} (part? : ChartCall P W → Option β) (past : List (ChartCall P W))
    (s : State P W) : List β :=
  past.filterMap fun call => if call.state?.any (· == s) then part? call else none

theorem given_concat {β : Type} (part? : ChartCall P W → Option β) (past : List (ChartCall P W))
    (call : ChartCall P W) (s : State P W) : given part? (past ++ [call]) s
      = given part? past s ++ if call.state?.any (· == s) then (part? call).toList else [] := by
  unfold given
  rw [List.filterMap_append]
  by_cases h : call.state?.any (· == s) = true
  · cases hpart : part? call with
    | none => simp [hpart]
    | some b => simp [h, hpart]
  · simp [h]

/-- A call of another kind gives nothing. -/
theorem given_silent {β : Type} {part? : ChartCall P W → Option β} {call : ChartCall P W}
    (h : part? call = none) (past : List (ChartCall P W)) (s : State P W) :
    given part? (past ++ [call]) s = given part? past s := by
  simp [given_concat, h]

/-- **One more thing given.** A reading of the states that is all that the past has given for each,
one thing after the other, stays so when it goes on for the state of the call. -/
theorem reading_concat {γ β : Type} {part? : ChartCall P W → Option β} {op : γ → β → γ} {z : γ}
    {past : List (ChartCall P W)} {read read' : State P W → γ}
    (h : ∀ t, read t = (given part? past t).foldl op z) {call : ChartCall P W} {s : State P W}
    (hcall : call.state? = some s)
    (hread : ∀ t, read' t = if s == t then (part? call).toList.foldl op (read t) else read t)
    (t : State P W) : read' t = (given part? (past ++ [call]) t).foldl op z := by
  have hnamed : call.state?.any (· == t) = (s == t) := by rw [hcall]; rfl
  rw [given_concat, hnamed, hread, List.foldl_append, ← h]
  by_cases hst : (s == t) = true
  · rw [if_pos hst, if_pos hst]
  · rw [if_neg hst, if_neg hst]
    rfl

/-! ## The best of some derivations -/

section Best

omit [DecidableEq P] [DecidableEq W]

variable (A : ScoreAlgebra P W)

/-- The better one of a derivation and the best one before it, if there is one; of equally good ones
the one before. -/
def keepBetter (best : Option (Backpointer P W)) (b : Backpointer P W) : Option (Backpointer P W) :=
  if best.all fun old => A.isBetter b.score old.score then some b else best

/-- The derivation that is left when all are offered in order. -/
def kept (bs : List (Backpointer P W)) : Option (Backpointer P W) :=
  bs.foldl (keepBetter A) none

/-- The first of some derivations that no other one beats strictly. -/
def unbeaten (bs : List (Backpointer P W)) : Option (Backpointer P W) :=
  bs.find? fun b => bs.all fun other => !A.isBetter other.score b.score

/-- The scores of some derivations can be put in order. -/
def Ordered (bs : List (Backpointer P W)) : Prop :=
  WeakOrder (fun w => ∃ b ∈ bs, b.score = w) fun v w => A.lt v w = true

variable {A}

/-- The derivation that is left beats strictly those before it, and none of all beats it. -/
theorem exists_split_of_kept {bs : List (Backpointer P W)} {D : W → Prop}
    (hord : WeakOrder D fun v w => A.lt v w = true) (hD : ∀ b ∈ bs, D b.score) :
    bs = [] ∧ kept A bs = none ∨ ∃ before b behind, bs = before ++ b :: behind ∧
      kept A bs = some b ∧ (∀ a ∈ before, A.isBetter b.score a.score = true) ∧
      ∀ a ∈ bs, ¬ A.isBetter a.score b.score = true := by
  induction bs using List.reverseRecOn with
  | nil => exact Or.inl ⟨rfl, rfl⟩
  | append_singleton bs d ih =>
    refine Or.inr ?_
    have hd : D d.score := hD d (by simp)
    have hDbs : ∀ b ∈ bs, D b.score := fun b hb => hD b (List.mem_append_left _ hb)
    have hkept : kept A (bs ++ [d]) = keepBetter A (kept A bs) d := List.foldl_concat ..
    rcases ih hDbs with ⟨rfl, hnone⟩ | ⟨before, b, behind, hsplit, hb, hbefore, hbest⟩
    · refine ⟨[], d, [], rfl, rfl, by simp, ?_⟩
      intro a ha
      rw [List.mem_singleton.mp ha]
      exact hord.irrefl hd
    · have hbD : D b.score := hDbs b (by simp [hsplit])
      rw [hb] at hkept
      by_cases hbeats : A.isBetter d.score b.score = true
      · -- what does not beat the old one is beaten by whatever beats the old one
        have hall : ∀ a ∈ bs, A.isBetter d.score a.score = true := by
          intro a ha
          by_contra hnot
          exact hord.trans hbD (hDbs a ha) hd (hbest a ha) hnot hbeats
        refine ⟨bs, d, [], rfl, ?_, hall, ?_⟩
        · rw [hkept, keepBetter, if_pos (by simpa using hbeats)]
        · intro a ha
          rcases List.mem_append.mp ha with ha | ha
          · exact hord.asymm (hDbs a ha) hd (hall a ha)
          · rw [List.mem_singleton.mp ha]
            exact hord.irrefl hd
      · refine ⟨before, b, behind ++ [d], by simp [hsplit], ?_, hbefore, ?_⟩
        · rw [hkept, keepBetter, if_neg (by simpa using hbeats)]
        · intro a ha
          rcases List.mem_append.mp ha with ha | ha
          · exact hbest a ha
          · rw [List.mem_singleton.mp ha]
            exact hbeats

/-- **The derivation that is kept is the first one that no other one beats.** -/
theorem kept_eq_unbeaten {bs : List (Backpointer P W)} (hord : Ordered A bs) :
    kept A bs = unbeaten A bs := by
  rcases exists_split_of_kept hord fun b hb => ⟨b, hb, rfl⟩ with
    ⟨rfl, hnone⟩ | ⟨before, b, behind, hsplit, hb, hbefore, hbest⟩
  · exact hnone
  · rw [hb]
    symm
    refine List.find?_eq_some_iff_append.mpr ⟨?_, before, behind, hsplit, ?_⟩
    · rw [List.all_eq_true]
      intro a ha
      simpa using hbest a ha
    · intro a ha
      rw [Bool.not_eq_true', List.all_eq_false]
      exact ⟨b, by simp [hsplit], by simp [hbefore a ha]⟩

end Best

/-! ## What a call does to one cell -/

/-- A score of the cell's state. -/
def Cell.score {P W : Type} (c : Cell P W) : ScoreKind → W
  | .forward => c.forward
  | .inner => c.inner

namespace ChartCall

variable (A : ScoreAlgebra P W) (call : ChartCall P W)

/-- What a call does to the cell of its state. -/
def onCell : ChartCall P W → Cell P W → Cell P W
  | ensure _ | add _ => id
  | addScore .forward _ w => Cell.addForward A w
  | addScore .inner _ w => Cell.addInner A w
  | offer _ b => Cell.offer A b

/-- What a chart answers to a call after those of the past. -/
def answer (past : List (ChartCall P W)) : ChartCall P W → Option Bool
  | ensure _ | addScore _ _ _ => none
  | add s => some !(named past s.position).any (· == s)
  | offer s b =>
    some ((kept A (given candidate? past s)).all fun old => A.isBetter b.score old.score)

omit [DecidableEq P] [DecidableEq W]

theorem onCell_state (c : Cell P W) : (call.onCell A c).state = c.state := by
  cases call with
  | ensure k | add s => rfl
  | addScore kind s w => cases kind <;> rfl
  | offer s b => exact Cell.offer_state A b c

theorem onCell_score (kind : ScoreKind) (c : Cell P W) :
    (call.onCell A c).score kind = (call.score? kind).toList.foldl A.add (c.score kind) := by
  cases call with
  | ensure k | add s => rfl
  | addScore other s w => cases other <;> cases kind <;> rfl
  | offer s b =>
    cases kind with
    | forward => exact Cell.offer_forward A b c
    | inner => exact Cell.offer_inner A b c

theorem onCell_best (c : Cell P W) :
    (call.onCell A c).best = call.candidate?.toList.foldl (keepBetter A) c.best := by
  cases call with
  | ensure k | add s => rfl
  | addScore kind s w => cases kind <;> rfl
  | offer s b =>
    show (Cell.offer A b c).best = keepBetter A c.best b
    unfold Cell.offer keepBetter Cell.isImprovedBy
    split
    · rfl
    · rfl

end ChartCall

/-! ## Records -/

/-- What a chart tells, by whatever means, is what the calls say. -/
structure Recorded (A : ScoreAlgebra P W) (past : List (ChartCall P W)) (length : Nat)
    (states : Nat → List (State P W)) (score : ScoreKind → State P W → W)
    (best? : State P W → Option (Backpointer P W)) : Prop where
  length_eq : length = past.foldl ChartCall.lengthAfter 0
  /-- A position has the states that were named, each once, where it was named first. -/
  states_eq : ∀ k, states k = (named past k).eraseDups
  score_eq : ∀ kind s, score kind s = A.sum (given (ChartCall.score? kind) past s)
  best_eq : ∀ s, best? s = kept A (given ChartCall.candidate? past s)

/-! ## Charts of columns -/

namespace Chart

variable {A : ScoreAlgebra P W} {chart : Chart P W} {past : List (ChartCall P W)}

/-- The chart holds what the calls say. -/
abbrev Records (A : ScoreAlgebra P W) (past : List (ChartCall P W)) (chart : Chart P W) : Prop :=
  Recorded A past chart.length (fun k => (chart.column k).states) (chart.score A) chart.best?

/-- Something that is read from the cell of a state, a default if it is not there. -/
def reading {γ : Type} (read : Cell P W → γ) (z : γ) (chart : Chart P W) (s : State P W) : γ :=
  (((chart.column s.position).find? s).map read).getD z

theorem score_eq_reading (A : ScoreAlgebra P W) (chart : Chart P W) (kind : ScoreKind) :
    chart.score A kind = chart.reading (·.score kind) A.zero := by
  cases kind with
  | forward => rfl
  | inner => rfl

theorem best?_eq_reading (chart : Chart P W) : chart.best? = chart.reading (·.best) none := by
  funext s
  unfold best? Column.best? reading
  cases (chart.column s.position).find? s with
  | none => rfl
  | some c => rfl

theorem records_empty : Records A [] (empty : Chart P W) := by
  refine ⟨rfl, fun _ => rfl, fun kind s => ?_, fun _ => rfl⟩
  rw [score_eq_reading]
  rfl

omit [DecidableEq P] [DecidableEq W] in
theorem length_ensure (chart : Chart P W) (k : Nat) :
    (chart.ensure k).length = max chart.length (k + 1) := by
  simp only [length, Chart.ensure, List.length_append, List.length_replicate]
  omega

theorem alter_of_lt {s : State P W} (hs : s.position < chart.length) (f : Cell P W → Cell P W) :
    chart.alter A s f
      = .ok (chart.setColumn s.position ((chart.column s.position).alter A s f)) := by
  have hcol : chart.columns[s.position]? = some chart.columns[s.position] :=
    List.getElem?_eq_getElem hs
  simp [alter, column, hcol]

theorem alter_of_le {s : State P W} (hs : chart.length ≤ s.position) (f : Cell P W → Cell P W) :
    chart.alter A s f = .error .outOfRange := by
  have hcol : chart.columns[s.position]? = none := List.getElem?_eq_none hs
  simp [alter, hcol]

theorem addScore_eq (A : ScoreAlgebra P W) (chart : Chart P W) (kind : ScoreKind) (s : State P W)
    (w : W) : chart.addScore A kind s w
      = chart.alter A s ((ChartCall.addScore kind s w).onCell A) := by
  cases kind with
  | forward => rfl
  | inner => rfl

/-- A call that does not fit is refused. -/
theorem perform_of_not_fits {call : ChartCall P W} (h : call.fits chart.length = false) :
    chart.perform A call = (chart, .error .outOfRange) := by
  cases call with
  | ensure k => cases h
  | add s | addScore kind s w | offer s b =>
    have hs : chart.length ≤ s.position := ChartCall.le_of_not_fits rfl h
    simp only [perform, add, addScore_eq, offer, alter_of_le hs, afterwards]

namespace Records

theorem contains (h : Records A past chart) (s : State P W) :
    chart.contains s = (named past s.position).any (· == s) := by
  rw [← any_eraseDups, ← h.states_eq, Column.states, List.any_map]
  exact List.isSome_find? ..

theorem isImprovedBy (h : Records A past chart) (s : State P W) (b : Backpointer P W) :
    chart.isImprovedBy A s b = (kept A (given ChartCall.candidate? past s)).all
      fun old => A.isBetter b.score old.score := by
  rw [← h.best_eq, Chart.isImprovedBy, Chart.best?, Column.best?]
  cases (chart.column s.position).find? s with
  | none => rfl
  | some c => rfl

/-- A call that names a state changes the cell of that state, and answers by the past. -/
theorem perform_eq (h : Records A past chart) {call : ChartCall P W} {s : State P W}
    (hcall : call.state? = some s) (hs : s.position < chart.length) :
    chart.perform A call
      = (chart.setColumn s.position ((chart.column s.position).alter A s (call.onCell A)),
        .ok (call.answer A past)) := by
  cases call with
  | ensure k => cases hcall
  | addScore kind t w =>
    cases hcall
    simp only [perform, Chart.addScore_eq, alter_of_lt hs, afterwards, ChartCall.answer]
  | add t | offer t b =>
    cases hcall
    simp only [perform, Chart.add, Chart.offer, alter_of_lt hs, afterwards, ChartCall.onCell,
      ChartCall.answer, h.contains, h.isImprovedBy]

/-- What is read from the cells after one of them was changed by a call. -/
theorem reading_alter {s : State P W} (hs : s.position < chart.length) {call : ChartCall P W}
    {γ β : Type} {part? : ChartCall P W → Option β} {op : γ → β → γ} {read : Cell P W → γ} {z : γ}
    (hfresh : ∀ s, read (.fresh A s) = z)
    (hread : ∀ c, read (call.onCell A c) = (part? call).toList.foldl op (read c)) (t : State P W) :
    (chart.setColumn s.position ((chart.column s.position).alter A s (call.onCell A))).reading
        read z t
      = if s == t then (part? call).toList.foldl op (chart.reading read z t)
        else chart.reading read z t := by
  unfold reading
  rw [column_setColumn hs]
  by_cases hst : (s == t) = true
  · -- the look-up finds the changed cell, which started out fresh if the state is new
    have hposition : t.position = s.position := ((State.beq_iff s t).mp hst).2.2.1.symm
    rw [if_pos hst, if_pos hposition, Column.find?_alter A (call.onCell_state A), if_pos hst,
      hposition, ← Column.find?_congr _ hst, Option.map_some, Option.getD_some, hread]
    congr 1
    cases (chart.column s.position).find? s with
    | none => exact hfresh s
    | some c => rfl
  · rw [if_neg hst]
    by_cases hposition : t.position = s.position
    · rw [if_pos hposition, Column.find?_alter A (call.onCell_state A), if_neg hst, hposition]
    · rw [if_neg hposition]

theorem states_alter {s : State P W} (hs : s.position < chart.length) {call : ChartCall P W}
    (hcall : call.state? = some s)
    (h : ∀ k, (chart.column k).states = (named past k).eraseDups) (k : Nat) :
    ((chart.setColumn s.position ((chart.column s.position).alter A s (call.onCell A))).column
      k).states = (named (past ++ [call]) k).eraseDups := by
  rw [named_concat, hcall, column_setColumn hs]
  by_cases hk : k = s.position
  · subst hk
    rw [if_pos rfl, Column.states_alter A (call.onCell_state A), h, any_eraseDups]
    simp only [Option.filter, decide_true, if_true, Option.toList_some, eraseDups_concat]
  · have hother : ¬ s.position = k := fun he => hk he.symm
    rw [if_neg hk, h]
    simp [Option.filter, hother]

theorem ensure (h : Records A past chart) (k : Nat) :
    Records A (past ++ [.ensure k]) (chart.ensure k) := by
  refine ⟨?_, ?_, ?_, ?_⟩
  · rw [List.foldl_concat, ← h.length_eq]
    exact length_ensure chart k
  · intro j
    rw [column_ensure, h.states_eq, named_concat]
    simp [ChartCall.state?]
  · intro kind s
    rw [given_silent rfl, ← h.score_eq, score_eq_reading, score_eq_reading, reading, column_ensure,
      reading]
  · intro s
    rw [given_silent rfl, ← h.best_eq, Chart.best?, Chart.best?, column_ensure]

/-- **One more call is one more entry of the record**, and it is answered by what is recorded. -/
theorem perform (h : Records A past chart) (call : ChartCall P W)
    (hfits : call.fits chart.length = true) :
    Records A (past ++ [call]) (chart.perform A call).1 ∧
      (chart.perform A call).2 = .ok (call.answer A past) := by
  cases hcall : call.state? with
  | none =>
    obtain ⟨k, rfl⟩ := ChartCall.eq_ensure_of_state? hcall
    exact ⟨h.ensure k, rfl⟩
  | some s =>
    have hs : s.position < chart.length := ChartCall.lt_of_fits hcall hfits
    rw [h.perform_eq hcall hs]
    refine ⟨⟨?_, states_alter hs hcall h.states_eq, fun kind => ?_, ?_⟩, rfl⟩
    · rw [List.foldl_concat, ← h.length_eq, ChartCall.lengthAfter_of_state? hcall]
      exact List.length_set
    · refine reading_concat (h.score_eq kind) hcall fun t => ?_
      have hfresh : ∀ s, (Cell.fresh A s).score kind = A.zero := fun s => by cases kind <;> rfl
      rw [score_eq_reading, score_eq_reading]
      exact reading_alter hs hfresh (call.onCell_score A kind) t
    · refine reading_concat h.best_eq hcall fun t => ?_
      rw [best?_eq_reading, best?_eq_reading]
      exact reading_alter hs (fun _ => rfl) (call.onCell_best A) t

end Records

/-- A chart that is built up from nothing holds what the calls say that it did not refuse. -/
theorem records_performAll (A : ScoreAlgebra P W) (calls : List (ChartCall P W)) :
    Records A (accepted 0 calls) ((empty : Chart P W).performAll A calls) :=
  foldl_of_step Chart.length (fun chart call => (chart.perform A call).1) (Records A)
    (fun h => h.length_eq) (fun call h hfits => (Records.perform h call hfits).1)
    (fun _ _ h => congrArg Prod.fst (perform_of_not_fits h)) records_empty calls

end Chart
end StochasticGrammar
