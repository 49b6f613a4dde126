/-!
# Tables in insertion order

A table is a list of keys with their values. A key keeps the place and the spelling of its first
insertion, and a later insertion under an equal key replaces its value.
-/

namespace StochasticGrammar

/-- Keys with their values, in the order in which the keys first came. -/
abbrev Table (κ ν : Type) := List (κ × ν)

namespace Table

variable {κ ν : Type} [BEq κ]

/-- Gives a key a value: in its place if it has one, else at the end. -/
def insert : Table κ ν → κ → ν → Table κ ν
  | [], k, v => [(k, v)]
  | (k', v') :: rest, k, v =>
    if k' == k then (k', v) :: rest else (k', v') :: insert rest k v

/-- The value of a key. -/
def get? (t : Table κ ν) (k : κ) : Option ν :=
  t.lookup k

/-- The keys in order. -/
def keys (t : Table κ ν) : List κ :=
  t.map (·.1)

@[simp] theorem get?_nil (k : κ) : get? ([] : Table κ ν) k = none := rfl

theorem get?_cons (k' : κ) (v' : ν) (t : Table κ ν) (k : κ) :
    get? ((k', v') :: t) k = if k == k' then some v' else get? t k := by
  cases h : k == k' <;> simp [get?, List.lookup_cons, h]

/-- A new key goes to the end, and a known one keeps its place. -/
theorem keys_insert (t : Table κ ν) (k : κ) (v : ν) :
    keys (insert t k v) = if (keys t).any (· == k) then keys t else keys t ++ [k] := by
  induction t with
  | nil => simp [insert, keys]
  | cons entry t ih =>
    obtain ⟨k', v'⟩ := entry
    by_cases hk : (k' == k) = true
    · simp [insert, keys, hk]
    · simp only [keys] at ih
      simp only [keys, insert, if_neg hk, List.map_cons, List.any_cons, ih]
      by_cases hm : (t.map (·.1)).any (· == k) = true <;> simp [hk, hm]

theorem insert_of_new {t : Table κ ν} {k : κ} (h : ∀ e ∈ t, ¬ (e.1 == k) = true) (v : ν) :
    insert t k v = t ++ [(k, v)] := by
  induction t with
  | nil => rfl
  | cons e t ih =>
    obtain ⟨k', v'⟩ := e
    rw [insert, if_neg (h _ List.mem_cons_self), ih fun e he => h e (List.mem_cons_of_mem _ he)]
    rfl

/-- Filling a table under new and distinct keys puts the entries behind those that are there. -/
theorem foldl_insert {ι : Type} {key : ι → κ} {val : ι → ν} {l : List ι} {t : Table κ ν}
    (hl : l.Pairwise fun a b => ¬ (key a == key b) = true)
    (ht : ∀ e ∈ t, ∀ i ∈ l, ¬ (e.1 == key i) = true) :
    l.foldl (fun t i => insert t (key i) (val i)) t = t ++ l.map fun i => (key i, val i) := by
  induction l generalizing t with
  | nil => simp
  | cons i l ih =>
    obtain ⟨hi, hl⟩ := List.pairwise_cons.mp hl
    rw [List.foldl_cons, insert_of_new fun e he => ht e he i List.mem_cons_self, ih hl]
    · simp
    · intro e he j hj
      rcases List.mem_append.mp he with he | he
      · exact ht e he j (List.mem_cons_of_mem _ hj)
      · rw [List.mem_singleton.mp he]
        exact hi j hj

theorem get?_eq_none_iff {t : Table κ ν} {x : κ} :
    get? t x = none ↔ ∀ e ∈ t, ¬ (x == e.1) = true := by
  induction t with
  | nil => simp
  | cons e t ih =>
    obtain ⟨k, v⟩ := e
    rw [get?_cons]
    by_cases h : (x == k) = true <;> simp [h, ih]

theorem mem_of_get? {t : Table κ ν} {x : κ} {v : ν} (h : get? t x = some v) :
    ∃ k, (k, v) ∈ t ∧ (x == k) = true := by
  induction t with
  | nil => simp at h
  | cons e t ih =>
    obtain ⟨k, v'⟩ := e
    rw [get?_cons] at h
    by_cases hx : (x == k) = true
    · rw [if_pos hx] at h
      cases h
      exact ⟨k, List.mem_cons_self, hx⟩
    · rw [if_neg hx] at h
      obtain ⟨k', hk', hxk'⟩ := ih h
      exact ⟨k', List.mem_cons_of_mem _ hk', hxk'⟩

variable [EquivBEq κ]

/-- Equal keys find the same value. -/
theorem get?_congr (t : Table κ ν) {k l : κ} (h : (k == l) = true) : get? t k = get? t l := by
  induction t with
  | nil => rfl
  | cons entry t ih =>
    obtain ⟨k', v'⟩ := entry
    simp only [get?_cons, BEq.congr_left h, ih]

/-- A look-up sees the latest value of its key and nothing of the others. -/
theorem get?_insert (t : Table κ ν) (k : κ) (v : ν) (x : κ) :
    get? (insert t k v) x = if x == k then some v else get? t x := by
  induction t with
  | nil => simp [insert, get?_cons]
  | cons entry t ih =>
    obtain ⟨k', v'⟩ := entry
    by_cases hk : (k' == k) = true
    · have hx : (x == k') = (x == k) := BEq.congr_right hk
      by_cases h : (x == k) = true <;> simp [insert, get?_cons, hk, hx, h]
    · simp only [insert, if_neg hk, get?_cons, ih]
      by_cases hx : (x == k') = true
      · have : ¬ (x == k) = true := fun h => hk (BEq.trans (BEq.symm hx) h)
        simp [hx, this]
      · simp [hx]

/-- Under distinct keys, a look-up finds the entry that stands under its key. -/
theorem get?_of_mem {t : Table κ ν} (ht : t.Pairwise fun a b => ¬ (a.1 == b.1) = true)
    {k x : κ} {v : ν} (h : (k, v) ∈ t) (hx : (x == k) = true) : get? t x = some v := by
  induction t with
  | nil => cases h
  | cons e t ih =>
    obtain ⟨k', v'⟩ := e
    obtain ⟨he, ht⟩ := List.pairwise_cons.mp ht
    rw [get?_cons]
    rcases List.mem_cons.mp h with heq | h
    · cases heq
      rw [if_pos hx]
    · have hne : ¬ (x == k') = true := fun hxk' => he _ h (BEq.trans (BEq.symm hxk') hx)
      rw [if_neg hne]
      exact ih ht h

end Table

end StochasticGrammar
