import StochasticGrammar.Proofs.Bounded
import StochasticGrammar.Proofs.EmptyOrder
import StochasticGrammar.Proofs.Optimal

/-!
# Empty derivations against the rounds that count them

How probable it is to be empty is found in rounds, which end when they move nothing by more than a
small bound. The best single way to be empty is found exactly. So the first may miss what the second
has, and this says how much: a round adds every empty derivation that is as high as the rounds so
far are many (`add_weight_le`), hence when a round adds little, a derivation that is too high to
have been counted runs through one that is just high enough, and is no more probable than that.

> `weight_le_max`: an empty derivation is counted, or its probability is at most `1e-12`.

> `exists_create_iff`: a parser starts from a category that can be empty if and only if its empty
> probability is one that a rule may have.
-/

namespace StochasticGrammar

variable {K W : Type} [Field K] [LinearOrder K] [IsStrictOrderedRing K]

/-! ## Products -/

/-- A product of sums has the products of both parts, if one factor makes room for both. -/
theorem prod_add_prod_le {α : Type} {l : List α} {a w b : α → K}
    (ha : ∀ x ∈ l, 0 ≤ a x ∧ a x ≤ b x) (hw : ∀ x ∈ l, 0 ≤ w x ∧ w x ≤ b x)
    (hroom : ∃ x ∈ l, a x + w x ≤ b x) :
    (l.map a).prod + (l.map w).prod ≤ (l.map b).prod := by
  induction l with
  | nil =>
    obtain ⟨x, hx, _⟩ := hroom
    cases hx
  | cons x l ih =>
    obtain ⟨hax, ha⟩ := List.forall_mem_cons.mp ha
    obtain ⟨hwx, hw⟩ := List.forall_mem_cons.mp hw
    have hal := List.prod_map_le_prod_map₀ a b (fun y hy => (ha y hy).1) fun y hy => (ha y hy).2
    have hwl := List.prod_map_le_prod_map₀ w b (fun y hy => (hw y hy).1) fun y hy => (hw y hy).2
    have hbl : 0 ≤ (l.map b).prod := by
      apply List.prod_nonneg
      intro v hv
      obtain ⟨y, hy, rfl⟩ := List.mem_map.mp hv
      exact (ha y hy).1.trans (ha y hy).2
    rw [List.map_cons, List.map_cons, List.map_cons, List.prod_cons, List.prod_cons, List.prod_cons]
    obtain ⟨y, hy, hroom⟩ := hroom
    rcases List.mem_cons.mp hy with heq | hl
    -- the room is in the first factor, or the other factors have it
    · calc a x * (l.map a).prod + w x * (l.map w).prod
          ≤ a x * (l.map b).prod + w x * (l.map b).prod :=
            add_le_add (mul_le_mul_of_nonneg_left hal hax.1) (mul_le_mul_of_nonneg_left hwl hwx.1)
        _ = (a x + w x) * (l.map b).prod := (add_mul _ _ _).symm
        _ ≤ b x * (l.map b).prod := mul_le_mul_of_nonneg_right (heq ▸ hroom) hbl
    · have hrest := ih ha hw ⟨y, hl, hroom⟩
      have hap : 0 ≤ (l.map a).prod := by
        apply List.prod_nonneg
        intro v hv
        obtain ⟨y, hy, rfl⟩ := List.mem_map.mp hv
        exact (ha y hy).1
      have hwp : 0 ≤ (l.map w).prod := by
        apply List.prod_nonneg
        intro v hv
        obtain ⟨y, hy, rfl⟩ := List.mem_map.mp hv
        exact (hw y hy).1
      calc a x * (l.map a).prod + w x * (l.map w).prod
          ≤ b x * (l.map a).prod + b x * (l.map w).prod :=
            add_le_add (mul_le_mul_of_nonneg_right hax.2 hap) (mul_le_mul_of_nonneg_right hwx.2 hwp)
        _ = b x * ((l.map a).prod + (l.map w).prod) := (mul_add _ _ _).symm
        _ ≤ b x * (l.map b).prod := mul_le_mul_of_nonneg_left hrest (hax.1.trans hax.2)

/-- A product of numbers up to one is at most each of them. -/
theorem prod_le_of_mem {l : List K} (hunit : ∀ v ∈ l, 0 ≤ v ∧ v ≤ 1) {v : K} (hv : v ∈ l) :
    l.prod ≤ v := by
  obtain ⟨s, t, rfl⟩ := List.append_of_mem hv
  have hone : ∀ {l : List K}, (∀ v ∈ l, 0 ≤ v ∧ v ≤ 1) → 0 ≤ l.prod ∧ l.prod ≤ 1 := by
    intro l hl
    have hle := List.prod_map_le_prod_map₀ (s := l) id (fun _ => 1) (fun v hv => (hl v hv).1)
      fun v hv => (hl v hv).2
    rw [List.map_id, List.map_const', List.prod_replicate, one_pow] at hle
    exact ⟨List.prod_nonneg fun v hv => (hl v hv).1, hle⟩
  obtain ⟨_, hs⟩ := hone fun u hu => hunit u (List.mem_append_left _ hu)
  obtain ⟨ht₀, ht⟩ := hone fun u hu => hunit u (List.mem_append_right _ (List.mem_cons_of_mem _ hu))
  have hv₀ := (hunit v hv).1
  rw [List.prod_append, List.prod_cons]
  calc s.prod * (v * t.prod) ≤ v * t.prod := mul_le_of_le_one_left (mul_nonneg hv₀ ht₀) hs
    _ ≤ v := mul_le_of_le_one_right hv₀ ht

/-! ## What a round adds -/

namespace Empty

omit [IsStrictOrderedRing K] in
/-- What bounds the entries of a table bounds its masses. -/
theorem massAt_le {e : Masses K} {bound : K} (hbound : 0 ≤ bound) (h : ∀ entry ∈ e, entry.2 ≤ bound)
    (x : Category) : massAt e x ≤ bound := by
  unfold massAt
  cases hget : Table.get? e x with
  | none => exact hbound
  | some v =>
    obtain ⟨y, hy, _⟩ := Table.mem_of_get? hget
    exact h (y, v) hy

/-- A round that changes little raises no category by more. -/
theorem massStep_le_of_change {index : RuleIndex K W} {known : List Category} {e : Masses K}
    (hlists : Lists known e) {bound : K} (hbound : 0 ≤ bound)
    (hchange : change e (massRound index known e) ≤ bound) (x : Category) :
    massStep index known (massAt e) x ≤ massAt e x + bound := by
  have hentry := (change_massRound_le_iff hbound).mp hchange
  have hkeys := hlists x
  cases hget : Table.get? e x with
  | none =>
    have hout : known.contains x = false := by
      rw [← hkeys, Bool.eq_false_iff, Ne, List.any_eq_true]
      intro hany
      obtain ⟨y, hy, hxy⟩ := hany
      obtain ⟨entry, hmem, rfl⟩ := List.mem_map.mp hy
      exact Table.get?_eq_none_iff.mp hget entry hmem hxy
    rw [massStep, if_neg (by rw [hout]; exact Bool.false_ne_true), massAt, hget]
    exact (zero_add bound).symm ▸ hbound
  | some v =>
    obtain ⟨y, hy, hxy⟩ := Table.mem_of_get? hget
    have hin : known.contains x = true := by
      rw [← hkeys]
      exact List.any_eq_true.mpr ⟨y, List.mem_map_of_mem hy, hxy⟩
    -- the entry was found under another spelling of the category, which has the same rules
    have hdist : Probability.dist (vanishing index known (massAt e) y) v ≤ bound := hentry _ hy
    have hsame : massStep index known (massAt e) x = vanishing index known (massAt e) y := by
      rw [massStep, if_pos hin, vanishing, RuleIndex.rulesOf, RuleIndex.rulesOf,
        Table.get?_congr index hxy]
    have hmass : massAt e x = v := by
      rw [massAt, hget]
      rfl
    rw [hsame, hmass]
    rw [Probability.dist_eq] at hdist
    exact sub_le_iff_le_add'.mp ((le_abs_self _).trans hdist)

end Empty

namespace Grammar

variable [DecidableEq W] {solver : Solver K} {G : Grammar K W}

omit [IsStrictOrderedRing K] in
/-- A rule that can vanish is summed over. -/
theorem Compiled.massStep_split (hG : G.Compiled solver) {r : Rule K W} (hr : r ∈ G.rules)
    (hnull : ∀ y ∈ r.rhs, G.isNullable y = true) :
    ∃ others ⊆ G.rules, ∀ f : Category → K, Empty.massStep G.index G.nullable f r.lhs
      = (others.map fun r => r.probability * (r.rhs.map f).prod).sum
        + r.probability * (r.rhs.map f).prod := by
  have hlhs : G.nullable.contains r.lhs = true := hG.isNullable_of_rule hr hnull
  have hmem : r ∈ (G.index.rulesOf r.lhs).filter (Empty.isCovered G.nullable) :=
    List.mem_filter.mpr ⟨hG.sourceRulesOf.mpr ⟨hr, rfl⟩, List.all_eq_true.mpr hnull⟩
  obtain ⟨before, after, hsplit⟩ := List.append_of_mem hmem
  refine ⟨before ++ after, fun s hs => ?_, fun f => ?_⟩
  · have hs : s ∈ (G.index.rulesOf r.lhs).filter (Empty.isCovered G.nullable) := by
      rw [hsplit]
      rcases List.mem_append.mp hs with hs | hs
      · exact List.mem_append_left _ hs
      · exact List.mem_append_right _ (List.mem_cons_of_mem _ hs)
    exact (hG.sourceRulesOf.mp (List.mem_filter.mp hs).1).1
  · rw [Empty.massStep, if_pos hlhs, hsplit]
    simp only [Probability.sum_eq, Probability.prod_eq, List.map_append, List.map_cons,
      List.sum_append, List.sum_cons]
    ring

/-- What a rule has in a round, its category has. -/
theorem Compiled.mul_prod_le_massStep (hG : G.Compiled solver) {f : Category → K} (h : ∀ x, 0 ≤ f x)
    {r : Rule K W} (hr : r ∈ G.rules) (hnull : ∀ y ∈ r.rhs, G.isNullable y = true) :
    r.probability * (r.rhs.map f).prod ≤ Empty.massStep G.index G.nullable f r.lhs := by
  obtain ⟨others, hothers, heq⟩ := hG.massStep_split hr hnull
  rw [heq f]
  refine le_add_of_nonneg_left (List.sum_nonneg fun w hw => ?_)
  obtain ⟨s, hs, rfl⟩ := List.mem_map.mp hw
  refine mul_nonneg (hG.probability_mem_unit (hothers hs)).1.le (List.prod_nonneg fun v hv => ?_)
  obtain ⟨y, _, rfl⟩ := List.mem_map.mp hv
  exact h y

/-- What a rule gains in a round, its category gains. -/
theorem Compiled.massStep_add_le (hG : G.Compiled solver) {f g : Category → K}
    (h : ∀ x, 0 ≤ f x ∧ f x ≤ g x) {r : Rule K W} (hr : r ∈ G.rules)
    (hnull : ∀ y ∈ r.rhs, G.isNullable y = true) {w : K}
    (hw : (r.rhs.map f).prod + w ≤ (r.rhs.map g).prod) :
    Empty.massStep G.index G.nullable f r.lhs + r.probability * w
      ≤ Empty.massStep G.index G.nullable g r.lhs := by
  obtain ⟨others, hothers, heq⟩ := hG.massStep_split hr hnull
  have hpos : ∀ s ∈ G.rules, 0 ≤ s.probability := fun s hs => (hG.probability_mem_unit hs).1.le
  rw [heq f, heq g, add_assoc, ← mul_add]
  refine add_le_add (List.sum_le_sum fun s hs => ?_) (mul_le_mul_of_nonneg_left hw (hpos r hr))
  exact mul_le_mul_of_nonneg_left (List.prod_map_le_prod_map₀ f g (fun y _ => (h y).1)
    fun y _ => (h y).2) (hpos s (hothers hs))

theorem Compiled.massAfter_mono (hG : G.Compiled solver) (x : Category) :
    Monotone fun n => Empty.massAfter G.index n x :=
  monotone_nat_of_le_succ fun n => (hG.massAfter_le_succ n x).2

/-- **The rounds have settled**: the last one moved nothing by more than `1e-12`, and left nothing
much above one. -/
theorem Compiled.emptyProbability_settled (hG : G.Compiled solver) :
    ∃ k, G.emptyProbability = Empty.massAfter G.index (k + 1) ∧
      (∀ x, Empty.massAfter G.index (k + 1) x ≤ Empty.massAfter G.index k x + 1e-12) ∧
      ∀ x, G.emptyProbability x ≤ 1 + 1e-9 := by
  obtain ⟨k, heq, hchange, hbound⟩ := hG.masses_eq
  obtain ⟨hafter, hlists⟩ := Empty.massAt_massesAfter G.index k
  have hlarge : (0 : K) ≤ 1 + 1e-9 := by norm_num
  rw [Empty.massesAfter_succ] at hchange
  have hnext := Empty.massStep_le_of_change hlists (by norm_num) hchange
  rw [hafter, ← Empty.massAfter_succ] at hnext
  refine ⟨k, ?_, hnext, Empty.massAt_le hlarge fun entry hentry => not_lt.mp (hbound entry hentry)⟩
  rw [← (Empty.massAt_massesAfter G.index (k + 1)).1, ← heq]
  rfl

end Grammar

/-! ## Empty derivations -/

namespace Parser

variable [DecidableEq W] {solver : Solver K} {G : Grammar K W}

/-- The categories of an empty derivation can be empty, those of its children too. -/
theorem isNullable_of_children (hG : G.Compiled solver) {r : Rule K W} {ds : List (Derivation K W)}
    (hroots : ds.map Derivation.root = r.rhs) (hds : ∀ d ∈ ds, d.IsSourceParse G)
    (hempty : ∀ d ∈ ds, d.tokens = []) : ∀ y ∈ r.rhs, G.isNullable y = true := by
  intro y hy
  rw [← hroots] at hy
  obtain ⟨d, hd, rfl⟩ := List.mem_map.mp hy
  exact (weight_le_of_empty hG (hds d hd) (hempty d hd)).1

/-- **A round adds every empty derivation of its height.** Below a node one child is as high as the
round before allows, and new to it; the others are counted already, at least as much as they
weigh. -/
theorem add_weight_le (hG : G.Compiled solver) {d : Derivation K W} (h : d.IsSourceParse G)
    (hempty : d.tokens = []) : ∃ n, d.height = n + 1 ∧
      Empty.massAfter G.index n d.root + d.weight Rule.probability
        ≤ Empty.massAfter G.index (n + 1) d.root := by
  induction h with
  | leaf => cases hempty
  | @node r ds hr hroots hds ih =>
    rw [Derivation.tokens_node, List.flatMap_eq_nil_iff] at hempty
    have hnull := isNullable_of_children hG hroots hds hempty
    obtain ⟨n, hheight, hle, hhigh⟩ := Derivation.exists_height_node r ds
    refine ⟨n, hheight, ?_⟩
    rw [Derivation.weight_node, Derivation.root_node]
    cases n with
    | zero =>
      -- what is empty has a height, so that there are no children
      have hnone : ds = [] := by
        refine List.eq_nil_iff_forall_not_mem.mpr fun d hd => ?_
        obtain ⟨m, hm, _⟩ := ih d hd (hempty d hd)
        have hzero := hle d hd
        omega
      have hfirst := hG.mul_prod_le_massStep (f := fun _ => 0) (fun _ => le_refl 0) hr hnull
      rw [← hroots, hnone, hG.nullable] at hfirst
      rw [hnone]
      exact (zero_add _).trans_le hfirst
    | succ n =>
      obtain ⟨high, hmem, hhigh⟩ := hhigh.resolve_left (Nat.succ_ne_zero n)
      have hround := fun x => hG.massAfter_le_succ n x
      have hweight : ∀ d ∈ ds, 0 ≤ d.weight Rule.probability ∧
          d.weight Rule.probability ≤ Empty.massAfter G.index (n + 1) d.root := by
        intro d hd
        obtain ⟨m, hm, hadd⟩ := ih d hd (hempty d hd)
        have hnonneg := (hG.massAfter_le_succ m d.root).1
        have hmono := hG.massAfter_mono d.root (hm ▸ hle d hd : m + 1 ≤ n + 1)
        exact ⟨weight_nonneg hG (hds d hd),
          (le_add_of_nonneg_left hnonneg).trans (hadd.trans hmono)⟩
      have hprod : (r.rhs.map (Empty.massAfter G.index n)).prod
            + (ds.map (Derivation.weight Rule.probability)).prod
          ≤ (r.rhs.map (Empty.massAfter G.index (n + 1))).prod := by
        rw [← hroots, List.map_map, List.map_map]
        refine prod_add_prod_le (fun d _ => hround d.root) hweight ⟨high, hmem, ?_⟩
        obtain ⟨m, hm, hadd⟩ := ih high hmem (hempty high hmem)
        obtain rfl : m = n := by omega
        exact hadd
      have hstep := hG.massStep_add_le hround hr hnull hprod
      rw [hG.nullable, ← Empty.massAfter_succ, ← Empty.massAfter_succ] at hstep
      exact hstep

/-- A derivation that is high enough runs through one of every smaller height, no less probable. -/
theorem exists_part_of_height (hG : G.Compiled solver) {d : Derivation K W} (h : d.IsSourceParse G)
    (hempty : d.tokens = []) {n : Nat} (hn : n + 1 ≤ d.height) :
    ∃ part : Derivation K W, part.IsSourceParse G ∧ part.tokens = [] ∧ part.height = n + 1 ∧
      d.weight Rule.probability ≤ part.weight Rule.probability := by
  induction h with
  | leaf => cases hempty
  | @node r ds hr hroots hds ih =>
    rcases Nat.eq_or_lt_of_le hn with heq | hlt
    · exact ⟨_, .node hr hroots hds, hempty, heq.symm, le_refl _⟩
    rw [Derivation.tokens_node, List.flatMap_eq_nil_iff] at hempty
    obtain ⟨m, hm, _, hhigh⟩ := Derivation.exists_height_node r ds
    obtain ⟨d, hd, hdm⟩ := hhigh.resolve_left (by omega)
    obtain ⟨part, hpart, htokens, hheight, hle⟩ := ih d hd (hempty d hd) (by omega)
    refine ⟨part, hpart, htokens, hheight, le_trans ?_ hle⟩
    have hunit : ∀ w ∈ ds.map (Derivation.weight Rule.probability), 0 ≤ w ∧ w ≤ 1 := by
      intro w hw
      obtain ⟨e, he, rfl⟩ := List.mem_map.mp hw
      obtain ⟨hnull, hbest⟩ := weight_le_of_empty hG (hds e he) (hempty e he)
      exact ⟨weight_nonneg hG (hds e he), hbest.trans (bestEmptyProbability_le_one hG hnull)⟩
    have hprobability := hG.probability_mem_unit hr
    rw [Derivation.weight_node]
    refine (mul_le_of_le_one_left ?_ hprobability.2).trans
      (prod_le_of_mem hunit (List.mem_map_of_mem hd))
    exact List.prod_nonneg fun w hw => (hunit w hw).1

/-- **An empty derivation is counted**, or too high for the rounds to notice that it is missing. -/
theorem weight_le_max (hG : G.Compiled solver) {d : Derivation K W} (h : d.IsSourceParse G)
    (hempty : d.tokens = []) :
    d.weight Rule.probability ≤ max (G.emptyProbability d.root) 1e-12 := by
  obtain ⟨k, heq, hnext, _⟩ := hG.emptyProbability_settled
  rcases Nat.lt_or_ge (k + 1) d.height with hhigh | hlow
  · obtain ⟨part, hpart, htokens, hheight, hle⟩ := exists_part_of_height hG h hempty hhigh.le
    obtain ⟨n, hn, hadd⟩ := add_weight_le hG hpart htokens
    obtain rfl : n = k := by omega
    exact le_max_of_le_right (hle.trans (le_of_add_le_add_left (hadd.trans (hnext part.root))))
  · obtain ⟨n, hn, hadd⟩ := add_weight_le hG h hempty
    have hnonneg := (hG.massAfter_le_succ n d.root).1
    have hmono := hG.massAfter_mono d.root (hn ▸ hlow)
    rw [heq]
    exact le_max_of_le_left ((le_add_of_nonneg_left hnonneg).trans (hadd.trans hmono))

/-! ## Parsers -/

/-- A parser starts from a category that can be empty if and only if its empty probability is one
that a rule may have. -/
theorem exists_create_iff (hG : G.Compiled solver) {x : Category} (hx : G.isNullable x = true) :
    (∃ p, create G x = .ok p) ↔ 0 < G.emptyProbability x ∧ G.emptyProbability x ≤ 1 := by
  constructor
  · intro hcreate
    obtain ⟨p, hp⟩ := hcreate
    obtain ⟨_, column, hseeds, _⟩ := create_eq_ok hp
    unfold seeds at hseeds
    rw [if_pos hx] at hseeds
    obtain ⟨q, hq, _⟩ := bind_eq_ok.mp hseeds
    exact (isProper_of_emptyStart hq).2
  · intro hmass
    obtain ⟨p, r, hget⟩ := hG.exists_choice hx
    have hr := (hG.chosen.backed hget).mem
    have hname : x ∈ G.names := hG.mem_names.mpr ⟨r, hr, hG.lhs_eq_of_choice hget⟩
    exact exists_create (hG.ne_start_of_mem_names hname) fun _ => hmass

/-- **Empty probabilities, and the parsers that need them.** For a category that can be empty, the
best way to be so has a probability of its own, and the sum of all ways has at least that up to
`1e-12`, and is above one by at most `1e-9`. A parser starts from it if and only if that sum is
positive and at most one. Both hold if the best way is above `1e-12` and the probabilities of no
category sum up to more than one, and then the best way does not outweigh the sum. -/
theorem empty_probability_is_usable {A : ScoreAlgebra K W} (hG : G.Built solver A) {x : Category}
    (hx : G.isNullable x = true) :
    (0 < G.bestEmptyProbability x ∧ G.bestEmptyProbability x ≤ 1) ∧
    G.bestEmptyProbability x ≤ max (G.emptyProbability x) 1e-12 ∧
    (0 ≤ G.emptyProbability x ∧ G.emptyProbability x ≤ 1 + 1e-9) ∧
    ((∃ p, create G x = .ok p) ↔ 0 < G.emptyProbability x ∧ G.emptyProbability x ≤ 1) ∧
    (1e-12 < G.bestEmptyProbability x →
      (∀ y ∈ G.names, ((G.sourceRulesOf y).map Rule.probability).sum ≤ 1) →
      G.bestEmptyProbability x ≤ G.emptyProbability x ∧ G.emptyProbability x ≤ 1 ∧
        ∃ p, create G x = .ok p) := by
  obtain ⟨hC, rfl⟩ := hG.compiled
  obtain ⟨d, hd, hroot, _⟩ := exists_isEmptyBest hC hx
  have hpos := bestEmptyProbability_pos hC hx
  have hbest : G.bestEmptyProbability x ≤ max (G.emptyProbability x) 1e-12 := by
    rw [← hroot, ← weight_of_isEmptyBest hC hd]
    exact weight_le_max hC (hd.isSourceParse hC) hd.tokens_eq
  obtain ⟨_, _, _, hbound⟩ := hC.emptyProbability_settled
  refine ⟨⟨hpos, bestEmptyProbability_le_one hC hx⟩, hbest,
    ⟨hC.emptyProbability_nonneg x, hbound x⟩, exists_create_iff hC hx, fun hlarge hsum => ?_⟩
  have hle := (le_max_iff.mp hbest).resolve_right (not_le.mpr hlarge)
  have hone := hC.emptyProbability_le_one hsum x
  exact ⟨hle, hone, (exists_create_iff hC hx).mpr ⟨hpos.trans_le hle, hone⟩⟩

theorem small_empty_probability_is_usable :
    ∃ G, smallGrammar = .ok G ∧ G.isNullable (.name "A") = true ∧
      1e-12 < G.bestEmptyProbability (.name "A") ∧
      G.bestEmptyProbability (.name "A") ≤ G.emptyProbability (.name "A") ∧
      G.emptyProbability (.name "A") ≤ 1 ∧ ∃ p, create G (.name "A") = .ok p := by
  have hcheck : (smallGrammar.toOption.any fun G => decide (G.isNullable (.name "A") = true ∧
      1e-12 < G.bestEmptyProbability (.name "A") ∧
      ∀ y ∈ G.names, ((G.sourceRulesOf y).map Rule.probability).sum ≤ 1)) = true := by
    decide +kernel
  obtain ⟨G, hG, hcheck⟩ := any_toOption.mp hcheck
  obtain ⟨hnull, hlarge, hsum⟩ := of_decide_eq_true hcheck
  have husable := (empty_probability_is_usable (built_smallGrammar hG) hnull).2.2.2.2 hlarge hsum
  exact ⟨G, hG, hnull, hlarge, husable⟩

/-- A category that is hardly ever empty, below another one. -/
def faintBuilder : Except (GrammarError ℚ) (Builder ℚ ℚ) := do
  let b := Builder.empty (linearScores ℚ) false
  let b ← b.add ⟨.plain, .name "X", [.name "Y"]⟩ (1 / 2)
  let b ← b.add ⟨.plain, .name "Y", []⟩ 1e-13
  b.add ⟨.plain, .name "Y", [.name "a"]⟩ (9 / 10)

/-- A category that is empty in two ways, a little more often than always. -/
def excessBuilder : Except (GrammarError ℚ) (Builder ℚ ℚ) := do
  let b := Builder.empty (linearScores ℚ) false
  let b ← b.add ⟨.plain, .name "X", []⟩ (3 / 5)
  let b ← b.add ⟨.plain, .name "X", [.name "Y"]⟩ (2 / 5 + 1e-10)
  b.add ⟨.plain, .name "Y", []⟩ 1

set_option maxRecDepth 100000 in
/-- Two grammars are built whose first category can be empty, and no parser starts from it. In one,
the first round already changes so little that it is the last, and has not reached the category. In
the other, the probabilities sum up to more than one by less than is tolerated. -/
theorem no_parser_for_a_nullable_start :
    (∃ G, (faintBuilder >>= fun b => b.build rationalSolver) = .ok G ∧
      G.isNullable (.name "X") = true ∧ G.emptyProbability (.name "X") = 0 ∧
      G.bestEmptyProbability (.name "X") = 5e-14 ∧ ¬ ∃ p, create G (.name "X") = .ok p) ∧
    ∃ G, (excessBuilder >>= fun b => b.build rationalSolver) = .ok G ∧
      G.isNullable (.name "X") = true ∧ G.emptyProbability (.name "X") = 1 + 1e-10 ∧
      ¬ ∃ p, create G (.name "X") = .ok p := by
  have hfails : ∀ {G : Grammar ℚ ℚ}, (create G (.name "X")).toOption.isNone = true →
      ¬ ∃ p, create G (.name "X") = .ok p := by
    intro G hnone hcreate
    obtain ⟨p, hp⟩ := hcreate
    rw [hp] at hnone
    cases hnone
  have hfaint : ((faintBuilder >>= fun b => b.build rationalSolver).toOption.any fun G =>
      decide (G.isNullable (.name "X") = true ∧ G.emptyProbability (.name "X") = 0 ∧
        G.bestEmptyProbability (.name "X") = 5e-14 ∧
        (create G (.name "X")).toOption.isNone = true)) = true := by
    decide +kernel
  have hexcess : ((excessBuilder >>= fun b => b.build rationalSolver).toOption.any fun G =>
      decide (G.isNullable (.name "X") = true ∧ G.emptyProbability (.name "X") = 1 + 1e-10 ∧
        (create G (.name "X")).toOption.isNone = true)) = true := by
    decide +kernel
  obtain ⟨G, hG, hcheck⟩ := any_toOption.mp hfaint
  obtain ⟨hnull, hmass, hbest, hnone⟩ := of_decide_eq_true hcheck
  obtain ⟨G', hG', hcheck'⟩ := any_toOption.mp hexcess
  obtain ⟨hnull', hmass', hnone'⟩ := of_decide_eq_true hcheck'
  exact ⟨⟨G, hG, hnull, hmass, hbest, hfails hnone⟩, G', hG', hnull', hmass', hfails hnone'⟩

end Parser
end StochasticGrammar
