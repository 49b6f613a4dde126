import StochasticGrammar.Chart.Column

/-!
# Columns as finite maps

A column is a list of cells, but the parser only ever looks cells up by their state and alters them
one at a time. This file is the interface for that view: what a look-up sees after an alteration,
which cells a column holds, and that a column in which every state stands once stays so.

States are the same up to the spelling of values. The rules that one chart is built from are told
apart by `==` exactly as by `=`; `Discrete` says so, and `beq_iff_eq` carries it over to states.
-/

namespace StochasticGrammar

variable {P W : Type} [DecidableEq P] [DecidableEq W]

/-- Members that are the same are equal: no two of them differ in spelling only. -/
def Discrete {α : Type} [BEq α] (p : α → Prop) : Prop :=
  ∀ a b, p a → p b → (a == b) = true → a = b

/-- States are the same when they agree in everything, the rule up to spelling. -/
theorem State.beq_iff (s t : State P W) :
    (s == t) = true ↔ s.origin = t.origin ∧ s.dot = t.dot ∧ s.position = t.position ∧
      (s.rule == t.rule) = true := by
  show (decide (s.origin = t.origin) && decide (s.dot = t.dot)
    && decide (s.position = t.position) && s.rule == t.rule) = true ↔ _
  simp [and_assoc]

/-- Over rules that are told apart, the same states are equal. -/
theorem State.beq_iff_eq {p : Rule P W → Prop} (hp : Discrete p) {s t : State P W}
    (hs : p s.rule) (ht : p t.rule) : (s == t) = true ↔ s = t := by
  constructor
  · intro h
    obtain ⟨ho, hd, hk, hr⟩ := (State.beq_iff s t).mp h
    have hrule := hp _ _ hs ht hr
    cases s
    cases t
    simp_all
  · rintro rfl
    exact BEq.rfl

/-! ## Offers -/

namespace Cell

omit [DecidableEq P] [DecidableEq W]

variable (A : ScoreAlgebra P W) (b : Backpointer P W) (c : Cell P W)

@[simp] theorem offer_state : (c.offer A b).state = c.state := by
  unfold offer
  split <;> rfl

@[simp] theorem offer_forward : (c.offer A b).forward = c.forward := by
  unfold offer
  split <;> rfl

@[simp] theorem offer_inner : (c.offer A b).inner = c.inner := by
  unfold offer
  split <;> rfl

/-- After an offer the best derivation is the one offered, or the one that was there before. -/
theorem best_offer_cases : (c.offer A b).best = some b ∨ ∃ old, c.best = some old ∧
    (c.offer A b).best = some old := by
  unfold offer
  split
  · exact Or.inl rfl
  · next hkept =>
    cases hbest : c.best with
    | none =>
      unfold isImprovedBy at hkept
      rw [hbest] at hkept
      exact absurd rfl hkept
    | some old => exact Or.inr ⟨old, rfl, rfl⟩

end Cell

namespace Column

/-- No two cells of the column have the same state. -/
def Distinct (col : Column P W) : Prop :=
  col.Pairwise fun a b => ¬ (a.state == b.state) = true

/-- The cell of a state, a fresh one if it is not there. -/
def cell (A : ScoreAlgebra P W) (col : Column P W) (s : State P W) : Cell P W :=
  (col.find? s).getD (.fresh A s)

/-! ## Looking cells up -/

theorem mem_of_find? {col : Column P W} {s : State P W} {c : Cell P W}
    (h : find? col s = some c) : c ∈ col ∧ (c.state == s) = true :=
  ⟨List.mem_of_find?_eq_some h, by simpa using List.find?_some h⟩

/-- In a column without repetition, a cell is what the look-up of its state finds. -/
theorem find?_of_mem {col : Column P W} (hd : Distinct col) {c : Cell P W} (hc : c ∈ col) :
    find? col c.state = some c := by
  induction col with
  | nil => cases hc
  | cons d col ih =>
    obtain ⟨hd₁, hd₂⟩ := List.pairwise_cons.mp hd
    rw [find?_cons]
    rcases List.mem_cons.mp hc with rfl | hc
    · rw [if_pos BEq.rfl]
    · rw [if_neg (hd₁ c hc)]
      exact ih hd₂ hc

theorem contains_iff {col : Column P W} {s : State P W} :
    contains col s = true ↔ ∃ c ∈ col, (c.state == s) = true := by
  unfold contains
  rw [Option.isSome_iff_exists]
  constructor
  · rintro ⟨c, hc⟩
    exact ⟨c, mem_of_find? hc⟩
  · rintro ⟨c, hc, hcs⟩
    exact Option.isSome_iff_exists.mp (List.find?_isSome.mpr ⟨c, hc, hcs⟩)

/-- A state that is not in a column is not found there. -/
theorem find?_eq_none_of_not_contains {col : Column P W} {s : State P W}
    (h : contains col s = false) : find? col s = none := by
  unfold contains at h
  simpa using h

/-- Two columns together contain what either does. -/
theorem contains_append (col col' : Column P W) (s : State P W) :
    contains (col ++ col') s = (contains col s || contains col' s) := by
  rw [Bool.eq_iff_iff, Bool.or_eq_true, contains_iff, contains_iff, contains_iff]
  simp only [List.mem_append, or_and_right, exists_or]

/-- Over rules that are told apart, a column contains a state when one of its cells has it. -/
theorem contains_iff_mem {p : Rule P W → Prop} (hp : Discrete p) {col : Column P W}
    (hcol : ∀ c ∈ col, p c.state.rule) {s : State P W} (hs : p s.rule) :
    contains col s = true ↔ ∃ c ∈ col, c.state = s := by
  rw [contains_iff]
  constructor
  · rintro ⟨c, hc, hcs⟩
    exact ⟨c, hc, (State.beq_iff_eq hp (hcol c hc) hs).mp hcs⟩
  · rintro ⟨c, hc, rfl⟩
    exact ⟨c, hc, BEq.rfl⟩

theorem inner_eq_cell (A : ScoreAlgebra P W) (col : Column P W) (s : State P W) :
    inner A col s = (cell A col s).inner := by
  unfold inner cell
  cases find? col s <;> rfl

theorem forward_eq_cell (A : ScoreAlgebra P W) (col : Column P W) (s : State P W) :
    forward A col s = (cell A col s).forward := by
  unfold forward cell
  cases find? col s <;> rfl

theorem best?_of_mem {col : Column P W} (hd : Distinct col) {c : Cell P W} (hc : c ∈ col) :
    best? col c.state = c.best := by
  unfold best?
  rw [find?_of_mem hd hc]
  rfl

theorem cell_of_mem (A : ScoreAlgebra P W) {col : Column P W} (hd : Distinct col) {c : Cell P W}
    (hc : c ∈ col) : cell A col c.state = c := by
  unfold cell
  rw [find?_of_mem hd hc]
  rfl

/-! ## Altering cells -/

variable (A : ScoreAlgebra P W) {s : State P W} {f : Cell P W → Cell P W}

/-- Altering a state makes the column contain it, besides what it contained. -/
theorem contains_alter (hf : ∀ c, (f c).state = c.state) (col : Column P W) (t : State P W) :
    contains (alter A s f col) t = (s == t || contains col t) := by
  unfold contains
  rw [find?_alter A hf]
  by_cases h : (s == t) = true <;> simp [h]

/-- A state that is not there is added at the end. -/
theorem alter_of_not_contains {col : Column P W} (h : contains col s = false) :
    alter A s f col = col ++ [f (.fresh A s)] := by
  induction col with
  | nil => rfl
  | cons c col ih =>
    have hc : ¬ (c.state == s) = true := by
      intro hcs
      rw [contains_iff.mpr ⟨c, List.mem_cons_self, hcs⟩] at h
      cases h
    have hcol : contains col s = false := by
      rw [Bool.eq_false_iff]
      intro hcs
      obtain ⟨d, hd, hds⟩ := contains_iff.mp hcs
      rw [contains_iff.mpr ⟨d, List.mem_cons_of_mem _ hd, hds⟩] at h
      cases h
    rw [alter, if_neg hc, ih hcol]
    rfl

/-- What an alteration does not touch stays as it is, cell by cell, if the state is there. -/
theorem map_alter {β : Type} {g : Cell P W → β} (hg : ∀ c, g (f c) = g c) {col : Column P W}
    (h : contains col s = true) : (alter A s f col).map g = col.map g := by
  induction col with
  | nil => simp [contains, find?] at h
  | cons c col ih =>
    rw [alter]
    by_cases hc : (c.state == s) = true
    · rw [if_pos hc, List.map_cons, List.map_cons, hg]
    · rw [if_neg hc, List.map_cons, List.map_cons, ih]
      obtain ⟨d, hd, hds⟩ := contains_iff.mp h
      rcases List.mem_cons.mp hd with rfl | hd
      · exact absurd hds hc
      · exact contains_iff.mpr ⟨d, hd, hds⟩

/-- After an alteration a cell is an old one of another state, or the altered one. -/
theorem mem_alter {col : Column P W} {c : Cell P W} (hd : Distinct col)
    (hc : c ∈ alter A s f col) :
    (c ∈ col ∧ ¬ (c.state == s) = true) ∨ c = f (cell A col s) := by
  induction col with
  | nil => exact Or.inr (by simpa [alter, cell, find?] using hc)
  | cons d col ih =>
    obtain ⟨hd₁, hd₂⟩ := List.pairwise_cons.mp hd
    rw [alter] at hc
    by_cases hds : (d.state == s) = true
    · rw [if_pos hds] at hc
      rcases List.mem_cons.mp hc with rfl | hc
      · exact Or.inr (by rw [cell, find?_cons, if_pos hds]; rfl)
      · refine Or.inl ⟨List.mem_cons_of_mem _ hc, fun hcs => hd₁ c hc ?_⟩
        exact BEq.trans hds (BEq.symm hcs)
    · rw [if_neg hds] at hc
      rcases List.mem_cons.mp hc with rfl | hc
      · exact Or.inl ⟨List.mem_cons_self, hds⟩
      · rcases ih hd₂ hc with ⟨hc, hcs⟩ | hc
        · exact Or.inl ⟨List.mem_cons_of_mem _ hc, hcs⟩
        · exact Or.inr (by rw [hc, cell, cell, find?_cons, if_neg hds])

/-- An old cell of another state is still there. -/
theorem mem_alter_of_mem {col : Column P W} {c : Cell P W} (hc : c ∈ col)
    (hcs : ¬ (c.state == s) = true) : c ∈ alter A s f col := by
  induction col with
  | nil => cases hc
  | cons d col ih =>
    rw [alter]
    by_cases hds : (d.state == s) = true
    · rw [if_pos hds]
      rcases List.mem_cons.mp hc with rfl | hc
      · exact absurd hds hcs
      · exact List.mem_cons_of_mem _ hc
    · rw [if_neg hds]
      rcases List.mem_cons.mp hc with rfl | hc
      · exact List.mem_cons_self
      · exact List.mem_cons_of_mem _ (ih hc)

/-- The altered cell is there. -/
theorem altered_mem (col : Column P W) : f (cell A col s) ∈ alter A s f col := by
  induction col with
  | nil => simp [alter, cell, find?]
  | cons d col ih =>
    rw [alter, cell, find?_cons]
    by_cases hds : (d.state == s) = true
    · rw [if_pos hds, if_pos hds]
      exact List.mem_cons_self
    · rw [if_neg hds, if_neg hds]
      exact List.mem_cons_of_mem _ ih

/-- **No state comes to be in a column twice.** -/
theorem distinct_alter (hf : ∀ c, (f c).state = c.state) {col : Column P W} (hd : Distinct col) :
    Distinct (alter A s f col) := by
  induction col with
  | nil => simp [alter, Distinct]
  | cons c col ih =>
    obtain ⟨hd₁, hd₂⟩ := List.pairwise_cons.mp hd
    rw [alter]
    by_cases hcs : (c.state == s) = true
    · rw [if_pos hcs]
      exact List.pairwise_cons.mpr ⟨fun b hb => by rw [hf]; exact hd₁ b hb, hd₂⟩
    · rw [if_neg hcs]
      refine List.pairwise_cons.mpr ⟨fun b hb hcb => ?_, ih hd₂⟩
      rcases mem_alter A hd₂ hb with ⟨hb, _⟩ | rfl
      · exact hd₁ b hb hcb
      · rw [hf, cell] at hcb
        cases hfind : find? col s with
        | none =>
          rw [hfind] at hcb
          exact hcs hcb
        | some d =>
          rw [hfind] at hcb
          exact hd₁ d (mem_of_find? hfind).1 hcb

/-- What a look-up sees after an alteration, over rules that are told apart. -/
theorem cell_alter {p : Rule P W → Prop} (hp : Discrete p) (hf : ∀ c, (f c).state = c.state)
    (col : Column P W) (hs : p s.rule) {t : State P W} (ht : p t.rule) :
    cell A (alter A s f col) t = if s = t then f (cell A col t) else cell A col t := by
  unfold cell
  rw [find?_alter A hf]
  by_cases hst : s = t
  · subst hst
    rw [if_pos BEq.rfl, if_pos rfl]
    rfl
  · rw [if_neg (fun h => hst ((State.beq_iff_eq hp hs ht).mp h)), if_neg hst]

end Column
end StochasticGrammar
