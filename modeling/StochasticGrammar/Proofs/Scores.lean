import Mathlib.Tactic.Ring
import StochasticGrammar.Proofs.Exact
import StochasticGrammar.Proofs.Reading

/-!
# What best scores stand for

A best derivation may have been computed from a phrase that has become better since, and nobody has
told it. In exact arithmetic that cannot make a difference: whoever became better has made its offer
again, so the score of a state is the product over the derivation that is read from it.

> `Reads.value_eq`: the score of a state is the weight of what is read from it.
-/

namespace StochasticGrammar.Parser

/-- The product of the probabilities of all rules in some derivations. -/
def chances {K W : Type} [Field K] (ds : List (Derivation K W)) : K :=
  (ds.map (Derivation.weight Rule.probability)).prod

section Chances

variable {K W : Type} [Field K]

@[simp] theorem chances_nil : chances ([] : List (Derivation K W)) = 1 := rfl

@[simp] theorem chances_cons (d : Derivation K W) (ds : List (Derivation K W)) :
    chances (d :: ds) = d.weight Rule.probability * chances ds := by
  rw [chances, chances, List.map_cons, List.prod_cons]

theorem chances_append (ds es : List (Derivation K W)) :
    chances (ds ++ es) = chances ds * chances es := by
  rw [chances, chances, chances, List.map_append, List.prod_append]

theorem weight_node_eq (r : Rule K W) (ds : List (Derivation K W)) :
    (Derivation.node r ds).weight Rule.probability = r.probability * chances ds :=
  Derivation.weight_node _ r ds

end Chances

/-! ## Restored children -/

/-- Some places of a right-hand side are those whose numbers they have. -/
theorem filter_places {rhs : List Category} {n : Nat} {o : List (Category × Nat)}
    (h : o.Sublist (rhs.zipIdx n)) :
    (rhs.zipIdx n).filter (fun place => (o.map (·.2)).contains place.2) = o := by
  induction rhs generalizing n o with
  | nil =>
    rw [List.zipIdx_nil] at h ⊢
    rw [List.sublist_nil.mp h]
    rfl
  | cons c rhs ih =>
    have hlater : ∀ place ∈ rhs.zipIdx (n + 1), place.2 ≠ n := by
      rintro place hplace rfl
      have := List.le_snd_of_mem_zipIdx hplace
      omega
    rw [List.zipIdx_cons] at h ⊢
    cases h with
    | cons _ h =>
      rw [List.filter_cons, if_neg, ih h]
      intro hcontains
      obtain ⟨place, hplace, heq⟩ := List.mem_map.mp (List.contains_iff_mem.mp hcontains)
      exact hlater place (h.subset hplace) heq
    | @cons_cons o _ _ h =>
      rw [List.filter_cons, if_pos (by simp)]
      congr 1
      refine Eq.trans (List.filter_congr fun place hplace => ?_) (ih h)
      have hne := hlater place hplace
      simp [hne]

variable {K W : Type} [Field K] [LinearOrder K] [IsStrictOrderedRing K] [DecidableEq W]
  {solver : Solver K} {G : Grammar K W} {goal : Category} {tokens : List Payload}
  {columns : List (Column K W)} {value : W → K}

/-- What is restored has the chances of what was found and of the best empty derivations. -/
theorem Restored.chances_eq (hG : G.Compiled solver) {omitted : List Int}
    {places : List (Category × Nat)} {found all : List (Derivation K W)}
    (h : Restored G omitted places found all) :
    chances all = chances found *
      ((places.filter fun place => omitted.contains (place.2 : Int)).map
        fun place => G.bestEmptyProbability place.1).prod := by
  induction h with
  | nil => simp
  | empty homitted hd hroot _ _ ih =>
    rw [List.filter_cons, if_pos homitted, List.map_cons, List.prod_cons, chances_cons, ih,
      weight_of_isEmptyBest hG hd, hroot]
    ring
  | found homitted _ _ ih =>
    rw [List.filter_cons, if_neg (Bool.eq_false_iff.mp homitted), chances_cons, chances_cons, ih]
    ring

/-- **The score of a production, times what it has found, is the weight of the restored node.** -/
theorem weight_restored (hG : G.Compiled solver) (hexact : G.algebra.IsExact value) {x : Category}
    {q : Production K W} (hq : q ∈ G.productionsOf x) {found all : List (Derivation K W)}
    (h : Restores G q.rule found all) :
    value q.best * chances found
      = (Derivation.node (sourceOf q.rule) all).weight Rule.probability := by
  obtain ⟨_, r, hexp⟩ := hG.mem_productionsOf.mp hq
  rw [weight_node_eq]
  cases hexp.expands with
  | whole =>
    have hvalue := value_weight hG hexact hexp.mem
    obtain ⟨head, p, _, rfl⟩ := hG.given r hexp.mem
    have hall : all = found := h
    rw [hall]
    exact congrArg (· * chances found) hvalue
  | @variant o ho hpos hp =>
    have hrestored : Restored G _ r.rhs.zipIdx found all := h
    show _ = r.probability * chances all
    rw [hrestored.chances_eq hG, value_variant hG hexact hexp.mem ho]
    simp only [contains_omitted]
    rw [filter_places ((Omission.mem_omissions.mp ho).1.trans List.filter_sublist)]
    ring

/-! ## Scores of states -/

omit [IsStrictOrderedRing K] in
/-- A production has one score to begin with. -/
theorem Begins.eq_best (hG : G.Compiled solver) {x : Category} {q : Production K W}
    (hq : q ∈ G.productionsOf x) {w : W} (h : Begins G goal q.rule w) : w = q.best := by
  have hlhs := lhs_ne_start_of_used hG hq
  generalize hr : q.rule = r at h hlhs
  cases h with
  | start => exact absurd rfl hlhs
  | empty _ hq' =>
    rw [emptyStart_eq_ok hq'] at hlhs
    exact absurd rfl hlhs
  | used hq' =>
    obtain ⟨_, r, hexp⟩ := hG.mem_productionsOf.mp hq
    obtain ⟨_, r', hexp'⟩ := hG.mem_productionsOf.mp hq'
    rw [hG.eq_of_rule_beq hexp hexp' (by rw [hr]; exact BEq.rfl)]

/-- A score that was computed from an older one of a phrase is that of the newer one: the phrase has
made its offer again. -/
theorem Linked.value_completed (hG : G.Compiled solver) (hexact : G.algebra.IsExact value)
    (hlinked : Linked G goal tokens columns) (hsat : Saturated G goal tokens columns) {k : Nat}
    {p : Cell K W} {b d : Backpointer K W} {done : State K W} {w : W}
    (hp : p ∈ (pastColumn columns done.origin).waiting done.rule.lhs) (hb : p.best = some b)
    (hopen : IsOpen k (pastColumn columns k) done)
    (hd : (pastColumn columns k).best? done = some d) (hle : ¬ Worse G d.score w)
    (hbest : (pastColumn columns k).best? (p.state.advance k)
      = some ⟨.completed, G.algebra.mul b.score w, some p.state, some done, none⟩) :
    value b.score * value w = value b.score * value d.score := by
  have hnonneg : 0 ≤ value b.score := by
    refine value_nonneg hG hexact ((hlinked done.origin).attainable p.state b ?_)
    rw [Column.best?_of_mem (hsat.shaped done.origin).distinct (List.mem_filter.mp hp).1]
    exact hb
  obtain ⟨t, ht, hsettled⟩ := (hlinked k).settled hopen d hd p hp b hb
  rw [hbest] at ht
  cases ht
  unfold Worse at hle hsettled
  rw [hexact.lt, not_lt] at hle hsettled
  rw [hexact.mul, hexact.mul] at hsettled
  exact le_antisymm (mul_le_mul_of_nonneg_left hle hnonneg) hsettled

/-- **The score of a state is the weight of what is read from it.** -/
theorem Reads.value_eq (hG : G.Compiled solver) (hexact : G.algebra.IsExact value)
    (hlinked : Linked G goal tokens columns) (hsat : Saturated G goal tokens columns) {k : Nat}
    {s : State K W} {ds : List (Derivation K W)} (h : Reads G tokens columns k s ds)
    {b : Backpointer K W} (hb : (pastColumn columns k).best? s = some b) :
    ∃ w, Begins G goal s.rule w ∧ value b.score = value w * chances ds := by
  induction h generalizing b with
  | @begins k s hs hdot =>
    obtain ⟨c, hc, rfl, hbest⟩ := best?_of_mem_states (hsat.shaped k).distinct hs
    obtain ⟨b', hb', hbegun⟩ := (hlinked k).begins hc hdot
    rw [hbest, hb'] at hb
    cases hb
    exact ⟨_, hbegun.score, by rw [chances_nil, mul_one]⟩
  | @scanned k p b' c token ds hs hp hpb htoken hc hterm haccepts hbest hds ih =>
    rw [hbest] at hb
    cases hb
    obtain ⟨w, hw, hvalue⟩ := ih
      (by rw [Column.best?_of_mem (hsat.shaped k).distinct hp]; exact hpb)
    refine ⟨w, hw, hvalue.trans ?_⟩
    rw [chances_append, chances_cons, chances_nil, Derivation.weight_leaf, mul_one, mul_one]
  | @completed k p b' d done w' ds es all hs hp hpb hopen hd hw hle hbest hds hes hall ih₁ ih₂ =>
    rw [hbest] at hb
    cases hb
    have hfits := hsat.fits hes.mem
    obtain ⟨_, hmem, hnext⟩ :=
      mem_names_of_waiting hG hsat.goal_ne (hsat.shaped done.origin) hfits hp
    have hlhs : done.rule.lhs ≠ .start := (hsat.fits hds.mem).next_ne_start hG hsat.goal_ne hnext
    obtain ⟨w, hw, hvalue⟩ := ih₁
      (by rw [Column.best?_of_mem (hsat.shaped done.origin).distinct hmem]; exact hpb)
    obtain ⟨v, hv, hvalue'⟩ := ih₂ hd
    obtain ⟨q, hq, hqr⟩ := hfits.rule.uses hG hlhs
    rw [← hqr] at hv hall
    have hnode := weight_restored hG hexact hq hall
    rw [← Begins.eq_best hG hq hv, ← hvalue', hqr] at hnode
    refine ⟨w, hw, ?_⟩
    rw [hexact.mul, hlinked.value_completed hG hexact hsat hp hpb hopen hd hle hbest, hvalue, hnode,
      chances_append, chances_cons, chances_nil, mul_one, mul_assoc]

end StochasticGrammar.Parser
