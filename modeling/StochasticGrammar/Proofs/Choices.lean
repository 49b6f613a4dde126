import StochasticGrammar.Proofs.Arithmetic
import StochasticGrammar.Proofs.Compiled
import StochasticGrammar.Proofs.Reach
import StochasticGrammar.Proofs.Relaxation

/-!
# The best empty derivations

For every category the best way to derive nothing is chosen by relaxation, rule by rule and round by
round. A rule is at most as good as each symbol that it vanishes through, so chosen rules lead down
without a cycle. A rule that is chosen in some round vanishes through a category that was chosen in
that round or the one before, so that the rounds are enough. Categories count as the same in all of
this when they differ in spelling only.

> `Choosing`: what every trial keeps.

> `chosen_choices`: the choices among some rules close no cycle, and no rule is better than they
> are.
-/

namespace StochasticGrammar

namespace Category

/-- A category up to the spelling of its value. -/
abbrev Form := { c : Category // c.canonical = c }

/-- The form of a category. -/
def form (c : Category) : Form :=
  ⟨c.canonical, c.canonical_canonical⟩

theorem form_eq_iff {a b : Category} : a.form = b.form ↔ (a == b) = true := by
  rw [beq_iff_canonical_eq]
  exact Subtype.mk_eq_mk

theorem val_beq_iff {y : Form} {x : Category} : (y.val == x) = true ↔ y = x.form := by
  rw [beq_iff_canonical_eq, y.property, Subtype.ext_iff]
  rfl

theorem form_val_beq (c : Category) : (c.form.val == c) = true :=
  val_beq_iff.mpr rfl

end Category

namespace Empty

open Category (Form)

variable {P W : Type} [Probability P]

/-- The chosen probability of a category. -/
def chance (best : Choices P W) (x : Category) : Option P :=
  (Table.get? best x).map (·.1)

/-- The rule chosen for the first category vanishes through the second one. -/
def leads (best : Choices P W) (x y : Form) : Prop :=
  ∃ p r, Table.get? best x.val = some (p, r) ∧ ∃ c ∈ r.rhs, c.form = y

/-- The probability with which a rule vanishes through what is chosen. -/
def offer (best : Choices P W) (r : Rule P W) : Option P :=
  (r.rhs.mapM (chance best)).map fun ps => r.probability * Probability.prod ps

/-- A rule is no better than what is chosen for its category. -/
def Idle (best : Choices P W) (r : Rule P W) : Prop :=
  ∀ p, offer best r = some p → ∃ q, chance best r.lhs = some q ∧ ¬ q < p

/-- The rule of a choice, and the probabilities that its symbols were chosen with then. They are
chosen with no smaller ones now. -/
structure Backed (rules : List (Rule P W)) (best : Choices P W) (x : Category) (p : P)
    (r : Rule P W) : Prop where
  mem : r ∈ rules
  lhs : (r.lhs == x) = true
  chance : ∃ ps, p = r.probability * Probability.prod ps ∧
    List.Forall₂ (fun y q => Probability.InUnit q ∧ ∃ v, chance best y = some v ∧ ¬ v < q) r.rhs ps

/-- What is chosen for has a name. -/
theorem Backed.form_mem {rules : List (Rule P W)} {best : Choices P W} {x : Category} {p : P}
    {r : Rule P W} (h : Backed rules best x p r) {names : List Category}
    (hnames : ∀ r ∈ rules, names.any (· == r.lhs) = true) : x.form ∈ names.map Category.form := by
  obtain ⟨y, hy, hyr⟩ := List.any_eq_true.mp (hnames r h.mem)
  exact List.mem_map.mpr ⟨y, hy, Category.form_eq_iff.mpr (BEq.trans hyr h.lhs)⟩

omit [Probability P] in
/-- Categories that differ in spelling only are chosen for together. -/
theorem chance_congr (best : Choices P W) {x y : Category} (h : (x == y) = true) :
    chance best x = chance best y := by
  unfold chance
  rw [Table.get?_congr best h]

omit [Probability P] in
theorem chance_insert (best : Choices P W) (x : Category) (entry : P × Rule P W) (y : Category) :
    chance (Table.insert best x entry) y = if y == x then some entry.1 else chance best y := by
  unfold chance
  rw [Table.get?_insert]
  split <;> rfl

omit [Probability P] in
theorem chance_eq_some_iff {best : Choices P W} {x : Category} {p : P} :
    chance best x = some p ↔ ∃ r, Table.get? best x = some (p, r) := by
  unfold chance
  rw [Option.map_eq_some_iff]
  constructor
  · rintro ⟨⟨q, r⟩, hget, rfl⟩
    exact ⟨r, hget⟩
  · rintro ⟨r, hget⟩
    exact ⟨(p, r), hget, rfl⟩

/-- A trial leaves the choices as they are, and then the rule is idle, or it is chosen. -/
theorem relax_cases (best : Choices P W) {x : Category} {r : Rule P W}
    (hx : (x == r.lhs) = true) :
    (relax x best r = best ∧ Idle best r) ∨
      ∃ p, offer best r = some p ∧ (∀ q, chance best r.lhs = some q → q < p) ∧
        relax x best r = Table.insert best x (p, r) := by
  unfold relax Idle offer chance
  rw [Table.get?_congr best hx]
  cases r.rhs.mapM fun s => (Table.get? best s).map (·.1) with
  | none => exact Or.inl ⟨rfl, fun p hp => (by cases hp)⟩
  | some ps =>
    cases Table.get? best r.lhs with
    | none => exact Or.inr ⟨_, rfl, fun q hq => (by cases hq), rfl⟩
    | some entry =>
      by_cases hlt : entry.1 < r.probability * Probability.prod ps
      · refine Or.inr ⟨_, rfl, fun q hq => ?_, if_pos hlt⟩
        cases hq
        exact hlt
      · refine Or.inl ⟨if_neg hlt, fun p hp => ?_⟩
        cases hp
        exact ⟨entry.1, rfl, hlt⟩

theorem offer_eq_some {best : Choices P W} {r : Rule P W} {p : P} (h : offer best r = some p) :
    ∃ ps, List.Forall₂ (fun y q => chance best y = some q) r.rhs ps ∧
      p = r.probability * Probability.prod ps := by
  obtain ⟨ps, hps, rfl⟩ := Option.map_eq_some_iff.mp h
  exact ⟨ps, mapM_eq_some_iff.mp hps, rfl⟩

theorem weakOrder_inUnit [UnitProducts P] :
    WeakOrder (Probability.InUnit (P := P)) (fun p q => p < q) :=
  ⟨UnitProducts.lt_asymm, UnitProducts.not_lt_trans⟩

/-- What is asked of the trials: each tries a rule for the category that it expands. -/
structure Usable (trials : List (Category × Rule P W)) : Prop where
  name : ∀ {t}, t ∈ trials → (t.1 == t.2.lhs) = true
  inUnit : ∀ {t}, t ∈ trials → Probability.InUnit t.2.probability

/-! ## One trial -/

/-- A rule is idle, or one of its symbols was chosen anew in the given round or later. -/
def Quiet (n : Nat) (stamp : Form → Nat) (best : Choices P W) (r : Rule P W) : Prop :=
  Idle best r ∨ ∃ y ∈ r.rhs, n ≤ stamp y.form

/-- What every trial keeps. Those of `todo` are still to come in this round; `stamp` says in which
round the choice for a category was made. -/
structure Choosing (trials : List (Category × Rule P W)) (n : Nat)
    (todo : List (Category × Rule P W)) (stamp : Form → Nat) (best : Choices P W) : Prop where
  backed : ∀ {x p r}, Table.get? best x = some (p, r) → Backed (trials.map (·.2)) best x p r
  relaxed : Relaxed Probability.InUnit (fun p q => p < q) (fun _ => 0)
    (fun x : Form => chance best x.val) (leads best)
  stamped : Stamped 1 (leads best) stamp
  stamp_le : ∀ x, stamp x ≤ n
  quiet : ∀ t ∈ trials, (t ∈ todo ∧ (n ≤ 1 ∨ Quiet (n - 1) stamp best t.2)) ∨
    Quiet n stamp best t.2

section Trial

variable [UnitProducts P] {trials todo : List (Category × Rule P W)} {n : Nat} {stamp : Form → Nat}
  {best : Choices P W}

omit [UnitProducts P] in
theorem Choosing.inUnit (h : Choosing trials n todo stamp best) {y : Category} {q : P}
    (hq : chance best y = some q) : Probability.InUnit q := by
  rw [← chance_congr best y.form_val_beq] at hq
  exact h.relaxed.dom hq

theorem offer_inUnit (h : Choosing trials n todo stamp best) {r : Rule P W}
    (hr : Probability.InUnit r.probability) {p : P} (hp : offer best r = some p) :
    Probability.InUnit p := by
  obtain ⟨ps, hps, rfl⟩ := offer_eq_some hp
  refine UnitProducts.mul_inUnit hr (Probability.prod_inUnit fun q hq => ?_)
  obtain ⟨y, _, hy⟩ := exists_left_of_mem hps hq
  exact h.inUnit hy

/-- The better choice for a category takes nothing from the others. -/
theorem exists_chance_insert (h : Choosing trials n todo stamp best) {x : Category} {r : Rule P W}
    {p : P} (hp : Probability.InUnit p) (hbetter : ∀ q, chance best x = some q → q < p)
    {y : Category} {v w : P} (hv : chance best y = some v) (hw : Probability.InUnit w)
    (hvw : ¬ v < w) : ∃ v', chance (Table.insert best x (p, r)) y = some v' ∧ ¬ v' < w := by
  rw [chance_insert]
  split
  · next hy =>
    have hpv := UnitProducts.lt_asymm (h.inUnit hv) hp (hbetter v (chance_congr best hy ▸ hv))
    exact ⟨p, rfl, UnitProducts.not_lt_trans hp (h.inUnit hv) hw hpv hvw⟩
  · exact ⟨v, hv, hvw⟩

omit [UnitProducts P] in
/-- A rule without the category among its symbols offers what it offered before. -/
theorem offer_insert {x : Category} (entry : P × Rule P W) {r : Rule P W}
    (hmem : ∀ y ∈ r.rhs, ¬ (y == x) = true) :
    offer (Table.insert best x entry) r = offer best r := by
  have hcongr : r.rhs.mapM (chance (Table.insert best x entry)) = r.rhs.mapM (chance best) := by
    refine mapM_congr fun y hy => ?_
    rw [chance_insert, if_neg (hmem y hy)]
  unfold offer
  rw [hcongr]

/-- A quiet rule stays quiet when a rule is chosen: if it vanishes through the category, that has
just been chosen anew. -/
theorem Choosing.quiet_insert (htrials : Usable trials) (h : Choosing trials n todo stamp best)
    {t : Category × Rule P W} (ht : t ∈ trials) {p : P} (hoffer : offer best t.2 = some p)
    (hbetter : ∀ q, chance best t.1 = some q → q < p) {m : Nat} (hm : m ≤ n)
    {t' : Category × Rule P W} (ht' : t' ∈ trials) (hquiet : Quiet m stamp best t'.2 ∨ t' = t) :
    Quiet m (Function.update stamp t.1.form n) (Table.insert best t.1 (p, t.2)) t'.2 := by
  have hp := offer_inUnit h (htrials.inUnit ht) hoffer
  by_cases hmem : ∃ y ∈ t'.2.rhs, (y == t.1) = true
  · obtain ⟨y, hy, hyt⟩ := hmem
    exact Or.inr ⟨y, hy, by rw [Category.form_eq_iff.mpr hyt, Function.update_self]; exact hm⟩
  · have hmem : ∀ y ∈ t'.2.rhs, ¬ (y == t.1) = true := fun y hy hyt => hmem ⟨y, hy, hyt⟩
    rcases hquiet with (hidle | ⟨y, hy, hle⟩) | rfl
    · left
      intro p' hp'
      rw [offer_insert _ hmem] at hp'
      obtain ⟨q, hq, hnot⟩ := hidle p' hp'
      exact exists_chance_insert h hp hbetter hq (offer_inUnit h (htrials.inUnit ht') hp') hnot
    · refine Or.inr ⟨y, hy, ?_⟩
      rwa [Function.update_of_ne fun heq => hmem y hy (Category.form_eq_iff.mp heq)]
    · left
      intro p' hp'
      rw [offer_insert _ hmem, hoffer] at hp'
      cases hp'
      exact ⟨p, by rw [chance_insert, if_pos (BEq.symm (htrials.name ht))],
        weakOrder_inUnit.irrefl hp⟩

omit [Probability P] [UnitProducts P] in
theorem get?_insert_form (x : Category) (entry : P × Rule P W) (y : Form) :
    Table.get? (Table.insert best x entry) y.val
      = if y = x.form then some entry else Table.get? best y.val := by
  rw [Table.get?_insert]
  exact if_congr Category.val_beq_iff rfl rfl

/-- A choice is at most as good as the symbols of its rule, and better than what was chosen before.
So no chosen rule leads back from them. -/
theorem Choosing.relaxed_insert (htrials : Usable trials) (h : Choosing trials n todo stamp best)
    {t : Category × Rule P W} (ht : t ∈ trials) {p : P} (hp : offer best t.2 = some p)
    (hbetter : ∀ q, chance best t.1 = some q → q < p) :
    Relaxed Probability.InUnit (fun p q => p < q) (fun _ => 0)
      (fun y : Form => chance (Table.insert best t.1 (p, t.2)) y.val)
      (leads (Table.insert best t.1 (p, t.2))) := by
  have hprob := htrials.inUnit ht
  have hpunit := offer_inUnit h hprob hp
  have hord : WeakOrder (Probability.InUnit (P := P)) (fun p q => p < q) := weakOrder_inUnit
  have hchance : ∀ y : Form, chance (Table.insert best t.1 (p, t.2)) y.val
      = if y = t.1.form then some p else chance best y.val := by
    intro y
    unfold chance
    rw [get?_insert_form]
    split <;> rfl
  refine h.relaxed.relax (a := t.1.form) hord
    (fun y => ∃ c ∈ t.2.rhs, c.form = y) hpunit ?_ ?_ ?_ ?_ ?_
  · show chance _ t.1.form.val = some p
    rw [hchance, if_pos rfl]
  · intro y hy
    show chance _ y.val = chance best y.val
    rw [hchance, if_neg hy]
  · rintro x y ⟨p', r', hx, hy⟩
    rw [get?_insert_form] at hx
    split at hx
    · next heq =>
      cases hx
      exact Or.inl ⟨heq, hy⟩
    · next hne => exact Or.inr ⟨hne, p', r', hx, hy⟩
  · -- a product of probabilities is no greater than any of its factors
    rintro y ⟨c, hc, rfl⟩
    obtain ⟨ps, hps, hpeq⟩ := offer_eq_some hp
    have hunit : ∀ q ∈ ps, Probability.InUnit q := by
      intro q hq
      obtain ⟨y, _, hy⟩ := exists_left_of_mem hps hq
      exact h.inUnit hy
    have hprod := Probability.prod_inUnit hunit
    obtain ⟨q, hq, hcq⟩ := exists_right_of_mem hps hc
    refine ⟨q, (chance_congr best c.form_val_beq).trans hcq, Nat.le_refl 0, fun _ => ?_⟩
    rw [hpeq] at hpunit ⊢
    exact hord.trans (hunit q hq) hprod hpunit (Probability.not_lt_prod_of_mem hunit hq)
      (UnitProducts.not_right_lt_mul hprob hprod)
  · intro old hold
    exact hbetter old ((chance_congr best t.1.form_val_beq).symm.trans hold)

omit [UnitProducts P] in
/-- A rule that is better than the choice was not idle, so one of its symbols has been chosen anew
since it was tried last. -/
theorem Choosing.exists_stamp_ge (h : Choosing trials n todo stamp best) {t : Category × Rule P W}
    (ht : t ∈ trials) {p : P} (hp : offer best t.2 = some p)
    (hbetter : ∀ q, chance best t.2.lhs = some q → q < p) :
    n ≤ 1 ∨ ∃ y ∈ t.2.rhs, n ≤ stamp y.form + 1 := by
  have hidle : ¬ Idle best t.2 := by
    intro hidle
    obtain ⟨q, hq, hnot⟩ := hidle p hp
    exact hnot (hbetter q hq)
  rcases h.quiet t ht with ⟨_, hn | hquiet⟩ | hquiet
  · exact Or.inl hn
  · obtain ⟨y, hy, hle⟩ := hquiet.resolve_left hidle
    exact Or.inr ⟨y, hy, by omega⟩
  · obtain ⟨y, hy, hle⟩ := hquiet.resolve_left hidle
    exact Or.inr ⟨y, hy, by omega⟩

/-- **Choosing a better rule** keeps everything. -/
theorem Choosing.choose (htrials : Usable trials) {t : Category × Rule P W}
    (h : Choosing trials n (t :: todo) stamp best) (ht : t ∈ trials) {p : P}
    (hp : offer best t.2 = some p) (hbetter : ∀ q, chance best t.1 = some q → q < p) :
    Choosing trials n todo (Function.update stamp t.1.form n)
      (Table.insert best t.1 (p, t.2)) := by
  have hname := htrials.name ht
  have hpunit := offer_inUnit h (htrials.inUnit ht) hp
  refine ⟨fun {x p' r'} hx => ?_, h.relaxed_insert htrials ht hp hbetter, ?_, fun x => ?_,
    fun t' ht' => ?_⟩
  · rw [Table.get?_insert] at hx
    split at hx
    -- the new choice stands on what was chosen before, and so do the old ones, which it only raises
    · next hxt =>
      cases hx
      obtain ⟨ps, hps, hpeq⟩ := offer_eq_some hp
      refine ⟨List.mem_map_of_mem ht, BEq.symm (BEq.trans hxt hname), ps, hpeq,
        hps.imp fun y q hy => ?_⟩
      have hq := h.inUnit hy
      exact ⟨hq, exists_chance_insert h hpunit hbetter hy hq (weakOrder_inUnit.irrefl hq)⟩
    · obtain ⟨hmem, hlhs, qs, hp', hqs⟩ := h.backed hx
      refine ⟨hmem, hlhs, qs, hp', hqs.imp fun y q hy => ?_⟩
      obtain ⟨hq, v, hv, hnot⟩ := hy
      exact ⟨hq, exists_chance_insert h hpunit hbetter hv hq hnot⟩
  · have hnew := h.exists_stamp_ge ht hp fun q hq => hbetter q ((chance_congr best hname).trans hq)
    refine h.stamped.relax (a := t.1.form) (Function.update_self _ _ _) (h.stamp_le _)
      (fun x hx => Function.update_of_ne hx _ _) ?_ (hnew.imp id ?_)
    · rintro x y hx ⟨p', r', hget, hy⟩
      exact ⟨p', r', by rw [get?_insert_form, if_neg hx]; exact hget, hy⟩
    · rintro ⟨y, hy, hle⟩
      refine ⟨y.form, ⟨p, t.2, by rw [get?_insert_form, if_pos rfl], y, hy, rfl⟩, ?_⟩
      by_cases hyt : y.form = t.1.form
      · rw [hyt, Function.update_self]
        exact Nat.le_succ n
      · rw [Function.update_of_ne hyt]
        exact hle
  · by_cases hx : x = t.1.form
    · rw [hx, Function.update_self]
    · rw [Function.update_of_ne hx]
      exact h.stamp_le x
  · rcases h.quiet t' ht' with ⟨htodo, hround⟩ | hquiet
    · rcases List.mem_cons.mp htodo with heq | htodo
      · exact Or.inr (h.quiet_insert htrials ht hp hbetter (Nat.le_refl n) ht' (Or.inr heq))
      · refine Or.inl ⟨htodo, hround.imp id fun hquiet => ?_⟩
        exact h.quiet_insert htrials ht hp hbetter (Nat.sub_le n 1) ht' (Or.inl hquiet)
    · exact Or.inr (h.quiet_insert htrials ht hp hbetter (Nat.le_refl n) ht' (Or.inl hquiet))

/-- One trial. -/
theorem Choosing.relax (htrials : Usable trials) {t : Category × Rule P W}
    (h : Choosing trials n (t :: todo) stamp best) (ht : t ∈ trials) :
    ∃ stamp', Choosing trials n todo stamp' (relax t.1 best t.2) := by
  rcases relax_cases best (htrials.name ht) with ⟨hsame, hidle⟩ | ⟨p, hp, hbetter, hrelax⟩
  · rw [hsame]
    refine ⟨stamp, h.backed, h.relaxed, h.stamped, h.stamp_le, fun t' ht' => ?_⟩
    rcases h.quiet t' ht' with ⟨htodo, hround⟩ | hquiet
    · rcases List.mem_cons.mp htodo with rfl | htodo
      · exact Or.inr (Or.inl hidle)
      · exact Or.inl ⟨htodo, hround⟩
    · exact Or.inr hquiet
  · rw [hrelax]
    rw [← chance_congr best (htrials.name ht)] at hbetter
    exact ⟨_, h.choose htrials ht hp hbetter⟩

/-! ## Rounds -/

/-- All trials of a round, one after the other. -/
def round (trials : List (Category × Rule P W)) (best : Choices P W) : Choices P W :=
  trials.foldl (fun best t => Empty.relax t.1 best t.2) best

theorem Choosing.foldl_relax (htrials : Usable trials) (htodo : ∀ t ∈ todo, t ∈ trials)
    (h : Choosing trials n todo stamp best) :
    ∃ stamp', Choosing trials n [] stamp' (round todo best) := by
  induction todo generalizing stamp best with
  | nil => exact ⟨stamp, h⟩
  | cons t todo ih =>
    obtain ⟨stamp', h'⟩ := h.relax htrials (htodo t List.mem_cons_self)
    exact ih (fun t' ht' => htodo t' (List.mem_cons_of_mem _ ht')) h'

omit [UnitProducts P] in
/-- Before the first round. -/
theorem choosing_nil (trials : List (Category × Rule P W)) :
    Choosing trials 1 trials (fun _ => 0) ([] : Choices P W) := by
  have hleads : ∀ x y, ¬ leads ([] : Choices P W) x y := by
    rintro x y ⟨p, r, hget, _⟩
    cases hget
  refine ⟨fun {x p r} hget => (by cases hget), ⟨fun {x w} hw => (by cases hw),
    fun {x y} hxy => absurd hxy (hleads x y), fun {x y} hxy => absurd hxy (hleads x y),
    fun {x y w v} hxy => absurd hxy (hleads x y), fun x hx => ?_⟩, fun x => Or.inl (Nat.zero_le _),
    fun x => Nat.zero_le _, fun t ht => Or.inl ⟨ht, Or.inl (Nat.le_refl 1)⟩⟩
  obtain ⟨y, hxy, _⟩ := Relation.TransGen.head'_iff.mp hx
  exact hleads x y hxy

theorem Choosing.round (htrials : Usable trials) (h : Choosing trials n trials stamp best) :
    ∃ stamp', Choosing trials n [] stamp' (round trials best) ∧
      Choosing trials (n + 1) trials stamp' (Empty.round trials best) := by
  obtain ⟨stamp', h'⟩ := h.foldl_relax htrials fun t ht => ht
  refine ⟨stamp', h', h'.backed, h'.relaxed, h'.stamped, fun x => Nat.le_succ_of_le (h'.stamp_le x),
    fun t ht => Or.inl ⟨ht, Or.inr ?_⟩⟩
  rcases h'.quiet t ht with ⟨hnil, _⟩ | hquiet
  · cases hnil
  · exact hquiet

theorem choosing_iterate (htrials : Usable trials) (n : Nat) :
    ∃ stamp, Choosing trials (n + 1) trials stamp ((Empty.round trials)^[n] []) := by
  induction n with
  | zero => exact ⟨_, choosing_nil trials⟩
  | succ n ih =>
    obtain ⟨stamp, h⟩ := ih
    obtain ⟨stamp', _, h'⟩ := h.round htrials
    rw [Function.iterate_succ_apply']
    exact ⟨stamp', h'⟩

end Trial

/-- What the rounds leave. -/
structure Chosen (rules : List (Rule P W)) (best : Choices P W) : Prop where
  inUnit : ∀ {x p}, chance best x = some p → Probability.InUnit p
  backed : ∀ {x p r}, Table.get? best x = some (p, r) → Backed rules best x p r
  acyclic : Acyclic (leads best)
  idle : ∀ r ∈ rules, Idle best r

/-- Chosen rules lead down: below the category that a rule is chosen for, there are fewer left. -/
theorem Chosen.depth_lt {rules : List (Rule P W)} {best : Choices P W} (h : Chosen rules best)
    {names : List Category} (hnames : ∀ r ∈ rules, names.any (· == r.lhs) = true) {x y : Category}
    {p : P} {r : Rule P W} (hx : Table.get? best x = some (p, r)) (hy : y ∈ r.rhs) :
    depth (leads best) (names.map Category.form) y.form
      < depth (leads best) (names.map Category.form) x.form := by
  have hleads : leads best x.form y.form :=
    ⟨p, r, (Table.get?_congr best x.form_val_beq).trans hx, y, hy, rfl⟩
  obtain ⟨_, _, ps, _, hps⟩ := h.backed hx
  obtain ⟨_, _, _, v, hv, _⟩ := exists_right_of_mem hps hy
  obtain ⟨_, hget⟩ := chance_eq_some_iff.mp hv
  exact h.acyclic.depth_lt hleads ((h.backed hget).form_mem hnames)

/-- **One round more than there are categories is enough.** -/
theorem chosen_iterate [UnitProducts P] {trials : List (Category × Rule P W)}
    (htrials : Usable trials) (names : List Category)
    (hnames : ∀ r ∈ trials.map (·.2), names.any (· == r.lhs) = true) :
    Chosen (trials.map (·.2)) ((round trials)^[names.length + 1] []) := by
  obtain ⟨stamp, h⟩ := choosing_iterate htrials names.length
  obtain ⟨stamp', h', _⟩ := h.round htrials
  rw [← Function.iterate_succ_apply' (round trials)] at h'
  refine ⟨fun {x p} hx => h'.inUnit hx, h'.backed, h'.relaxed.acyclic, fun r hr => ?_⟩
  have hname : ∀ {x : Form} {p : P},
      chance ((round trials)^[names.length + 1] []) x.val = some p →
        x ∈ names.map Category.form := by
    intro x p hx
    obtain ⟨r, hget⟩ := chance_eq_some_iff.mp hx
    rw [Category.val_beq_iff.mp (BEq.rfl : (x.val == x.val) = true)]
    exact (h'.backed hget).form_mem hnames
  obtain ⟨t, ht, rfl⟩ := List.mem_map.mp hr
  rcases h'.quiet t ht with ⟨hnil, _⟩ | hidle | ⟨y, _, hle⟩
  · cases hnil
  · exact hidle
  · -- no chain of chosen rules is as long as the rounds are many
    exfalso
    obtain ⟨z, hz, _⟩ := List.any_eq_true.mp (hnames t.2 hr)
    have hpos := List.length_pos_of_mem hz
    rcases h'.stamped y.form with hfirst | ⟨z, hyz, _⟩
    · omega
    · obtain ⟨p, r, hget, _⟩ := id hyz
      have hy := hname (chance_eq_some_iff.mpr ⟨r, hget⟩)
      have hdepth := h'.relaxed.acyclic.depth_lt_length hy
      have hstamp := h'.stamped.le_depth h'.relaxed.acyclic
        (fun hxy => (h'.relaxed.target hxy).elim fun v hv => hname hv) y.form
      rw [List.length_map] at hdepth
      omega

/-- A round of idle rules changes nothing. -/
theorem round_eq_self {trials : List (Category × Rule P W)} {best : Choices P W}
    (hname : ∀ t ∈ trials, (t.1 == t.2.lhs) = true) (hidle : ∀ t ∈ trials, Idle best t.2) :
    round trials best = best := by
  induction trials with
  | nil => rfl
  | cons t trials ih =>
    have hsame : relax t.1 best t.2 = best := by
      rcases relax_cases best (hname t List.mem_cons_self) with ⟨hsame, _⟩ | ⟨p, hp, hbetter, _⟩
      · exact hsame
      · obtain ⟨q, hq, hnot⟩ := hidle t List.mem_cons_self p hp
        exact absurd (hbetter q hq) hnot
    show round trials (relax t.1 best t.2) = best
    rw [hsame]
    exact ih (fun t ht => hname t (List.mem_cons_of_mem _ ht))
      fun t ht => hidle t (List.mem_cons_of_mem _ ht)

/-- The trials of a round, in order: every rule for the category that it is listed under. -/
def trials (index : RuleIndex P W) : List (Category × Rule P W) :=
  index.flatMap fun entry => entry.2.map fun r => (entry.1, r)

omit [Probability P] in
theorem mem_trials {rules : List (Rule P W)} {t : Category × Rule P W}
    (ht : t ∈ trials (RuleIndex.ofRules rules)) : t.2 ∈ rules ∧ (t.1 == t.2.lhs) = true := by
  obtain ⟨entry, hentry, ht⟩ := List.mem_flatMap.mp ht
  obtain ⟨r, hr, rfl⟩ := List.mem_map.mp ht
  obtain ⟨hr, hlhs⟩ := (RuleIndex.mem_entry_iff hentry).mp hr
  exact ⟨hr, BEq.symm hlhs⟩

omit [Probability P] in
theorem mem_map_trials {rules : List (Rule P W)} {r : Rule P W} :
    r ∈ (trials (RuleIndex.ofRules rules)).map (·.2) ↔ r ∈ rules := by
  constructor
  · intro hr
    obtain ⟨t, ht, rfl⟩ := List.mem_map.mp hr
    exact (mem_trials ht).1
  · intro hr
    obtain ⟨entry, hentry, _, hmem⟩ := RuleIndex.exists_entry hr
    exact List.mem_map.mpr ⟨(entry.1, r),
      List.mem_flatMap.mpr ⟨entry, hentry, List.mem_map_of_mem hmem⟩, rfl⟩

theorem choiceRound_eq (index : RuleIndex P W) : choiceRound index = round (trials index) := by
  funext best
  unfold choiceRound round trials
  rw [List.foldl_flatMap]
  simp only [List.foldl_map]

/-- **The choices among some rules.** -/
theorem chosen_choices [UnitProducts P] [DecidableEq P] [DecidableEq W] {rules : List (Rule P W)}
    (hrules : ∀ r ∈ rules, Probability.InUnit r.probability) :
    Chosen rules (choices (RuleIndex.ofRules rules)) := by
  have husable : Usable (trials (RuleIndex.ofRules rules)) :=
    ⟨fun ht => (mem_trials ht).2, fun ht => hrules _ (mem_trials ht).1⟩
  have hchosen := chosen_iterate husable (RuleIndex.ofRules rules).keys fun r hr =>
    (RuleIndex.names_ofRules rules).covers r (mem_map_trials.mp hr)
  have hlen : (RuleIndex.ofRules rules).keys.length = (RuleIndex.ofRules rules).length :=
    List.length_map _
  rw [hlen, ← choiceRound_eq, ← settle_eq_iterate] at hchosen
  refine ⟨hchosen.inUnit, fun {x p r} hget => ?_, hchosen.acyclic,
    fun r hr => hchosen.idle r (mem_map_trials.mpr hr)⟩
  have hbacked := hchosen.backed hget
  exact ⟨mem_map_trials.mp hbacked.mem, hbacked.lhs, hbacked.chance⟩

/-- **The choices are settled**: one more round changes nothing. -/
theorem choiceRound_choices [UnitProducts P] [DecidableEq P] [DecidableEq W]
    {rules : List (Rule P W)} (hrules : ∀ r ∈ rules, Probability.InUnit r.probability) :
    choiceRound (RuleIndex.ofRules rules) (choices (RuleIndex.ofRules rules))
      = choices (RuleIndex.ofRules rules) := by
  rw [choiceRound_eq]
  exact round_eq_self (fun t ht => (mem_trials ht).2)
    fun t ht => (chosen_choices hrules).idle t.2 (mem_trials ht).1

/-! ## Nullable categories -/

omit [Probability P]

/-- What one entry of the index adds in a round. -/
def vanish (known : List Category) (entry : Category × List (Rule P W)) : List Category :=
  if known.contains entry.1 then known
  else if entry.2.any (isCovered known) then known ++ [entry.1]
  else known

theorem nullableRound_eq (index : RuleIndex P W) (known : List Category) :
    nullableRound index known = index.foldl vanish known :=
  rfl

theorem vanish_cases (known : List Category) (entry : Category × List (Rule P W)) :
    (vanish known entry = known ∧
        (entry.2.any (isCovered known) = true → known.contains entry.1 = true)) ∨
      (vanish known entry = known ++ [entry.1] ∧ known.contains entry.1 = false) := by
  unfold vanish
  split
  · next hknown => exact Or.inl ⟨rfl, fun _ => hknown⟩
  · next hnew =>
    split
    · exact Or.inr ⟨rfl, by simpa using hnew⟩
    · next hany => exact Or.inl ⟨rfl, fun h => absurd h hany⟩

/-- A round leaves everything as it is, and then what it could add is known, or it adds
something. -/
theorem foldl_vanish_cases (index : RuleIndex P W) (known : List Category) :
    (index.foldl vanish known = known ∧
        ∀ entry ∈ index, entry.2.any (isCovered known) = true → known.contains entry.1 = true) ∨
      ∃ new, new ≠ [] ∧ index.foldl vanish known = known ++ new ∧
        ∃ entry ∈ index, entry.1 ∈ new ∧ known.contains entry.1 = false := by
  induction index generalizing known with
  | nil => exact Or.inl ⟨rfl, fun entry hentry => (by cases hentry)⟩
  | cons entry index ih =>
    rw [List.foldl_cons]
    rcases vanish_cases known entry with ⟨hsame, hknown⟩ | ⟨hadd, hnew⟩
    · rw [hsame]
      rcases ih known with ⟨hfold, hall⟩ | ⟨new, hne, hfold, e, he, hrest⟩
      · refine Or.inl ⟨hfold, fun e he => ?_⟩
        rcases List.mem_cons.mp he with rfl | he
        · exact hknown
        · exact hall e he
      · exact Or.inr ⟨new, hne, hfold, e, List.mem_cons_of_mem _ he, hrest⟩
    · right
      rw [hadd]
      rcases ih (known ++ [entry.1]) with ⟨hfold, _⟩ | ⟨new, _, hfold, _⟩
      · exact ⟨[entry.1], List.cons_ne_nil _ _, hfold, entry, List.mem_cons_self,
          List.mem_singleton_self _, hnew⟩
      · rw [List.append_assoc] at hfold
        exact ⟨[entry.1] ++ new, List.cons_ne_nil _ _, hfold, entry, List.mem_cons_self,
          List.mem_cons_self, hnew⟩

/-- How many categories of the index are known. -/
def countKnown (index : RuleIndex P W) (known : List Category) : Nat :=
  (index.filter fun entry => known.contains entry.1).length

theorem countKnown_lt {index : RuleIndex P W} {known : List Category}
    (h : nullableRound index known ≠ known) :
    countKnown index known < countKnown index (nullableRound index known) := by
  rcases foldl_vanish_cases index known with ⟨hsame, _⟩ | ⟨new, _, hfold, e, he, hmem, hnew⟩
  · exact absurd hsame h
  · rw [nullableRound_eq, hfold]
    unfold countKnown
    have hfilter : index.filter (fun e => known.contains e.1)
        = (index.filter fun e => (known ++ new).contains e.1).filter
            fun e => known.contains e.1 := by
      rw [List.filter_filter]
      refine List.filter_congr fun e _ => ?_
      cases hc : known.contains e.1 <;> simp_all
    rw [hfilter, List.length_filter_lt_length_iff_exists]
    refine ⟨e, List.mem_filter.mpr ⟨he, ?_⟩, by simpa using hnew⟩
    rw [List.contains_iff_exists_mem_beq]
    exact ⟨e.1, List.mem_append_right _ hmem, BEq.rfl⟩

/-- **What can be empty is closed**: a category with a rule over such categories is one of them. -/
theorem contains_nullable {index : RuleIndex P W} {entry : Category × List (Rule P W)}
    (hentry : entry ∈ index) (hany : entry.2.any (isCovered (nullable index)) = true) :
    (nullable index).contains entry.1 = true := by
  have hle : ∀ known, countKnown index known ≤ index.length := fun _ => List.length_filter_le _ _
  have hfixed : nullableRound index (nullable index) = nullable index :=
    step_settle (fun _ => countKnown_lt) hle _ (Nat.le_add_right _ _)
  rcases foldl_vanish_cases index (nullable index) with ⟨_, hall⟩ | ⟨new, hne, hfold, _⟩
  · exact hall entry hentry hany
  · rw [nullableRound_eq, hfold] at hfixed
    exact absurd (List.append_right_eq_self.mp hfixed) hne

/-- **What can be empty is the least set** that is closed under the rules. -/
theorem nullable_induction {rules : List (Rule P W)} {S : Category → Prop}
    (hS : ∀ {a b}, (a == b) = true → S a → S b)
    (hclosed : ∀ r ∈ rules, (∀ c ∈ r.rhs, S c) → S r.lhs) :
    ∀ x, (nullable (RuleIndex.ofRules rules)).contains x = true → S x := by
  have hcontains : ∀ {known : List Category}, (∀ y ∈ known, S y) → ∀ {x}, known.contains x = true →
      S x := by
    intro known hknown x hx
    obtain ⟨y, hy, hxy⟩ := List.contains_iff_exists_mem_beq.mp hx
    exact hS (BEq.symm hxy) (hknown y hy)
  have hall : ∀ y ∈ nullable (RuleIndex.ofRules rules), S y := by
    refine settle_induction (p := fun known => ∀ y ∈ known, S y) (fun known hknown => ?_) _
      fun y hy => absurd hy List.not_mem_nil
    refine List.foldlRecOn (motive := fun known => ∀ y ∈ known, S y) _ _ hknown
      fun known hknown entry hentry => ?_
    split
    · exact hknown
    · split
      · rename_i hany
        intro y hy
        rcases List.mem_append.mp hy with hy | hy
        · exact hknown y hy
        · rw [List.mem_singleton.mp hy]
          obtain ⟨r, hr, hcovered⟩ := List.any_eq_true.mp hany
          obtain ⟨hr, hlhs⟩ := (RuleIndex.mem_entry_iff hentry).mp hr
          exact hS hlhs (hclosed r hr fun c hc =>
            hcontains hknown (List.all_eq_true.mp hcovered c hc))
      · exact hknown
  exact fun x hx => hcontains hall hx

theorem contains_of_beq {known : List Category} {x y : Category} (hxy : (x == y) = true)
    (hx : known.contains x = true) : known.contains y = true := by
  obtain ⟨z, hz, hxz⟩ := List.contains_iff_exists_mem_beq.mp hx
  exact List.contains_iff_exists_mem_beq.mpr ⟨z, hz, BEq.trans (BEq.symm hxy) hxz⟩

theorem contains_nullable_lhs {rules : List (Rule P W)} {r : Rule P W} (hr : r ∈ rules)
    (hrhs : ∀ c ∈ r.rhs, (nullable (RuleIndex.ofRules rules)).contains c = true) :
    (nullable (RuleIndex.ofRules rules)).contains r.lhs = true := by
  obtain ⟨entry, hentry, hlhs, hmem⟩ := RuleIndex.exists_entry hr
  exact contains_of_beq hlhs
    (contains_nullable hentry (List.any_eq_true.mpr ⟨r, hmem, List.all_eq_true.mpr hrhs⟩))

/-- Every category that can be empty has a choice. -/
theorem Chosen.exists_chance [Probability P] {rules : List (Rule P W)} {best : Choices P W}
    (h : Chosen rules best) {x : Category}
    (hx : (nullable (RuleIndex.ofRules rules)).contains x = true) :
    ∃ p, chance best x = some p := by
  refine nullable_induction (S := fun x => ∃ p, chance best x = some p)
    (fun {a b} hab ha => chance_congr best hab ▸ ha) (fun r hr hrhs => ?_) x hx
  obtain ⟨ps, hps⟩ := exists_forall₂ hrhs
  obtain ⟨q, hq, _⟩ := h.idle r hr _ (by rw [offer, mapM_eq_some_iff.mpr hps]; rfl)
  exact ⟨q, hq⟩

end Empty

namespace Grammar

variable {P W : Type} [DecidableEq P] [DecidableEq W] [Probability P] {solver : Solver P}
  {G : Grammar P W}

/-- The rules of the index, category by category. -/
theorem Compiled.mem_index (h : Compiled solver G) {entry : Category × List (Rule P W)}
    (hentry : entry ∈ G.index) {r : Rule P W} : r ∈ entry.2 ↔ r ∈ G.rules ∧ r.lhs = entry.1 := by
  rw [h.index] at hentry
  rw [RuleIndex.mem_entry_iff hentry]
  refine and_congr_right fun hr => ⟨Category.eq_of_beq (h.lhs_plain hr), fun heq => ?_⟩
  rw [heq]
  exact BEq.rfl

/-- **The chosen empty derivations of a grammar.** -/
theorem Compiled.chosen [UnitProducts P] (h : Compiled solver G) :
    Empty.Chosen G.rules G.choices := by
  rw [h.choices, h.index]
  refine Empty.chosen_choices fun r hr => ?_
  obtain ⟨head, p, hp, rfl⟩ := h.given r hr
  exact UnitProducts.inUnit_of_isProper hp

/-- A chosen rule expands the category that it is chosen for. -/
theorem Compiled.lhs_eq_of_choice [UnitProducts P] (h : Compiled solver G) {x : Category} {p : P}
    {r : Rule P W} (hx : Table.get? G.choices x = some (p, r)) : r.lhs = x :=
  Category.eq_of_beq (h.lhs_plain (h.chosen.backed hx).mem) (h.chosen.backed hx).lhs

/-- Every category that can be empty has a choice. -/
theorem Compiled.exists_choice [UnitProducts P] (h : Compiled solver G) {x : Category}
    (hx : G.isNullable x = true) : ∃ p r, Table.get? G.choices x = some (p, r) := by
  unfold isNullable at hx
  rw [h.nullable, h.index] at hx
  obtain ⟨p, hp⟩ := h.chosen.exists_chance hx
  obtain ⟨r, hget⟩ := Empty.chance_eq_some_iff.mp hp
  exact ⟨p, r, hget⟩

/-- A category with a rule whose symbols can all be empty can be empty. -/
theorem Compiled.isNullable_of_rule (h : Compiled solver G) {r : Rule P W} (hr : r ∈ G.rules)
    (hall : ∀ c ∈ r.rhs, G.isNullable c = true) : G.isNullable r.lhs = true := by
  unfold isNullable at hall ⊢
  rw [h.nullable, h.index] at hall ⊢
  exact Empty.contains_nullable_lhs hr hall

end Grammar
end StochasticGrammar
