import StochasticGrammar.Proofs.Bounded

/-!
# Leaving out empty symbols keeps the weights of spans

Suppose that every symbol has a weight on every span of the input that is not empty, and its mass on
an empty one. The weight of a right side on a span is the sum over all ways to split the span among
its symbols, some of which get nothing. A rule and its variants, which split the span into parts
that all hold something, come to the same: where a symbol got nothing, a variant leaves it out and
has its mass in its probability.

> `sum_powerset_spanWeight`: a split by the symbols that get nothing.

> `eliminate_keeps_span_weights`: what the rules without empty right sides weigh on a span.
-/

namespace StochasticGrammar

variable {K W : Type}

/-! ## Splits of a span -/

/-- The ways to split the span from `i` to `j` into `k` parts, by the points where the parts begin
and end. Every point is related to the next one; none lies behind the end of the span. -/
def splits (next : ℕ → ℕ → Prop) [DecidableRel next] (k i j : ℕ) : Finset (Fin (k + 1) → ℕ) :=
  (Fintype.piFinset fun _ => Finset.range (j + 1)).filter fun x =>
    x 0 = i ∧ x (Fin.last k) = j ∧ ∀ m : Fin k, next (x m.castSucc) (x m.succ)

section Splits

variable {next : ℕ → ℕ → Prop} [DecidableRel next] {k i j : ℕ}

theorem le_of_mem_splits {x : Fin (k + 1) → ℕ} (hx : x ∈ splits next k i j) (m : Fin (k + 1)) :
    x m ≤ j := by
  have hm := Fintype.mem_piFinset.mp (Finset.mem_filter.mp hx).1 m
  exact Nat.lt_succ_iff.mp (Finset.mem_range.mp hm)

/-- That no point lies behind the end need not be said if the points follow one another. -/
theorem mem_splits (hnext : ∀ a b, next a b → a ≤ b) {x : Fin (k + 1) → ℕ} :
    x ∈ splits next k i j
      ↔ x 0 = i ∧ x (Fin.last k) = j ∧ ∀ m : Fin k, next (x m.castSucc) (x m.succ) := by
  unfold splits
  rw [Finset.mem_filter, Fintype.mem_piFinset]
  refine and_iff_right_of_imp fun hx m => ?_
  obtain ⟨_, hlast, hsteps⟩ := hx
  have hmono : Monotone x := Fin.monotone_iff_le_succ.mpr fun m => hnext _ _ (hsteps m)
  have hle := hmono (Fin.le_last m)
  rw [hlast] at hle
  exact Finset.mem_range.mpr (Nat.lt_succ_iff.mpr hle)

/-- An empty span is split into no parts, in one way. -/
theorem splits_zero (hnext : ∀ a b, next a b → a ≤ b) :
    splits next 0 i j = if i = j then {fun _ => i} else ∅ := by
  ext x
  rw [mem_splits hnext, show Fin.last 0 = 0 from rfl]
  split
  · rename_i hij
    rw [← hij, Finset.mem_singleton, funext_iff, Fin.forall_fin_one]
    exact ⟨fun hx => hx.1, fun hx => ⟨hx, hx, fun m => m.elim0⟩⟩
  · rename_i hij
    refine iff_of_false (fun hx => hij ?_) (Finset.notMem_empty x)
    exact hx.1.symm.trans hx.2.1

/-- A split is its first part and a split of what is left. -/
theorem cons_mem_splits (hnext : ∀ a b, next a b → a ≤ b) {y : Fin (k + 1) → ℕ} :
    (Fin.cons i y : Fin (k + 2) → ℕ) ∈ splits next (k + 1) i j
      ↔ next i (y 0) ∧ y ∈ splits next k (y 0) j := by
  rw [mem_splits hnext, mem_splits hnext, Fin.forall_fin_succ]
  simp only [Fin.cons_zero, true_and, ← Fin.succ_last, Fin.cons_succ, Fin.castSucc_zero,
    ← Fin.succ_castSucc]
  exact and_left_comm

theorem sum_splits_succ [AddCommMonoid K] (hnext : ∀ a b, next a b → a ≤ b)
    (f : (Fin (k + 2) → ℕ) → K) :
    ∑ x ∈ splits next (k + 1) i j, f x
      = ∑ m ∈ (Finset.range (j + 1)).filter (next i),
          ∑ y ∈ splits next k m j, f (Fin.cons i y) := by
  have hcons : ∀ x ∈ splits next (k + 1) i j, (Fin.cons i (Fin.tail x) : Fin (k + 2) → ℕ) = x := by
    intro x hx
    obtain ⟨rfl, _⟩ := (mem_splits hnext).mp hx
    exact Fin.cons_self_tail x
  have hzero : ∀ {m y}, y ∈ splits next k m j → y 0 = m := fun hy => ((mem_splits hnext).mp hy).1
  rw [Finset.sum_sigma']
  refine Finset.sum_bij' (fun x _ => ⟨Fin.tail x 0, Fin.tail x⟩) (fun z _ => Fin.cons i z.2)
    ?_ ?_ hcons ?_ fun x hx => congrArg f (hcons x hx).symm
  · intro x hx
    rw [← hcons x hx] at hx
    obtain ⟨hfirst, hrest⟩ := (cons_mem_splits hnext).mp hx
    have hle := le_of_mem_splits hrest 0
    exact Finset.mem_sigma.mpr
      ⟨Finset.mem_filter.mpr ⟨Finset.mem_range.mpr (Nat.lt_succ_iff.mpr hle), hfirst⟩, hrest⟩
  · intro z hz
    obtain ⟨hfirst, hrest⟩ := Finset.mem_sigma.mp hz
    rw [cons_mem_splits hnext, hzero hrest]
    exact ⟨(Finset.mem_filter.mp hfirst).2, hrest⟩
  · intro z hz
    obtain ⟨_, hrest⟩ := Finset.mem_sigma.mp hz
    refine Sigma.ext ?_ HEq.rfl
    exact hzero hrest

end Splits

/-! ## Weights of spans -/

/-- What a list of symbols weighs on a span: the sum, over the ways to split it among them, of the
products of what each of them weighs on its part. -/
def spanWeight [CommSemiring K] (next : ℕ → ℕ → Prop) [DecidableRel next]
    (weight : Category → ℕ → ℕ → K) (symbols : List Category) (i j : ℕ) : K :=
  ∑ x ∈ splits next symbols.length i j,
    ∏ m : Fin symbols.length, weight (symbols.get m) (x m.castSucc) (x m.succ)

/-- The weights of symbols with what they weigh on an empty span. -/
def orEmpty (empty : Category → K) (weight : Category → ℕ → ℕ → K) (s : Category) (a b : ℕ) : K :=
  if a = b then empty s else weight s a b

section Weights

variable [CommSemiring K] {weight : Category → ℕ → ℕ → K} {i j : ℕ}

/-- No symbols weigh something on an empty span only. -/
theorem spanWeight_nil {next : ℕ → ℕ → Prop} [DecidableRel next] (hnext : ∀ a b, next a b → a ≤ b) :
    spanWeight next weight [] i j = if i = j then 1 else 0 := by
  show ∑ x ∈ splits next 0 i j, ∏ m : Fin 0, _ = _
  rw [splits_zero hnext]
  split <;> simp

theorem spanWeight_cons {next : ℕ → ℕ → Prop} [DecidableRel next] (hnext : ∀ a b, next a b → a ≤ b)
    (c : Category) (symbols : List Category) :
    spanWeight next weight (c :: symbols) i j
      = ∑ m ∈ (Finset.range (j + 1)).filter (next i),
          weight c i m * spanWeight next weight symbols m j := by
  unfold spanWeight
  refine (sum_splits_succ hnext _).trans (Finset.sum_congr rfl fun m _ => ?_)
  rw [Finset.mul_sum]
  apply Finset.sum_congr rfl
  intro y hy
  obtain ⟨rfl, _⟩ := (mem_splits hnext).mp hy
  exact Fin.prod_univ_succ _

theorem spanWeight_lt_cons (c : Category) (symbols : List Category) :
    spanWeight (· < ·) weight (c :: symbols) i j
      = ∑ m ∈ Finset.Ioc i j, weight c i m * spanWeight (· < ·) weight symbols m j := by
  rw [spanWeight_cons fun _ _ h => h.le]
  refine Finset.sum_congr ?_ fun _ _ => rfl
  ext m
  simp only [Finset.mem_filter, Finset.mem_range, Finset.mem_Ioc]
  omega

/-- The first symbol gets something, or it gets nothing. -/
theorem spanWeight_le_cons (empty : Category → K) (hij : i ≤ j) (c : Category)
    (symbols : List Category) :
    spanWeight (· ≤ ·) (orEmpty empty weight) (c :: symbols) i j
      = ∑ m ∈ Finset.Ioc i j, weight c i m * spanWeight (· ≤ ·) (orEmpty empty weight) symbols m j
        + empty c * spanWeight (· ≤ ·) (orEmpty empty weight) symbols i j := by
  have hpoints : (Finset.range (j + 1)).filter (i ≤ ·) = Finset.Icc i j := by
    ext m
    simp only [Finset.mem_filter, Finset.mem_range, Finset.mem_Icc]
    omega
  rw [spanWeight_cons fun _ _ h => h, hpoints, ← Finset.sum_Ioc_add_eq_sum_Icc hij, orEmpty,
    if_pos rfl]
  refine congrArg (· + _) (Finset.sum_congr rfl fun m hm => ?_)
  rw [orEmpty, if_neg (Finset.mem_Ioc.mp hm).1.ne]

/-- **A split by the symbols that get nothing.** They are left out, and the others all get
something. -/
theorem sum_powerset_spanWeight (empty : Category → K) {places : List (Category × Nat)}
    (hnodup : places.Nodup) (hij : i ≤ j) :
    ∑ t ∈ places.toFinset.powerset, (∏ place ∈ t, empty place.1)
        * spanWeight (· < ·) weight ((places.filter fun place => place ∉ t).map Prod.fst) i j
      = spanWeight (· ≤ ·) (orEmpty empty weight) (places.map Prod.fst) i j := by
  induction places generalizing i with
  | nil =>
    rw [List.toFinset_nil, Finset.powerset_empty, Finset.sum_singleton, Finset.prod_empty, one_mul]
    exact (spanWeight_nil fun _ _ h => h.le).trans (spanWeight_nil fun _ _ h => h).symm
  | cons p places ih =>
    obtain ⟨hp, hplaces⟩ := List.nodup_cons.mp hnodup
    have hpset : p ∉ places.toFinset := fun h => hp (List.mem_toFinset.mp h)
    have hsub : ∀ {t}, t ∈ places.toFinset.powerset → p ∉ t :=
      fun ht h => hpset (Finset.mem_powerset.mp ht h)
    rw [List.toFinset_cons, Finset.sum_powerset_insert hpset, List.map_cons,
      spanWeight_le_cons empty hij]
    congr 1
    · -- the first place stays
      have hfirst : ∀ t ∈ places.toFinset.powerset, (∏ place ∈ t, empty place.1)
          * spanWeight (· < ·) weight
              (((p :: places).filter fun place => place ∉ t).map Prod.fst) i j
          = ∑ m ∈ Finset.Ioc i j, weight p.1 i m * ((∏ place ∈ t, empty place.1)
              * spanWeight (· < ·) weight
                  ((places.filter fun place => place ∉ t).map Prod.fst) m j) := by
        intro t ht
        rw [List.filter_cons_of_pos (by simpa using hsub ht), List.map_cons, spanWeight_lt_cons,
          Finset.mul_sum]
        exact Finset.sum_congr rfl fun m _ => mul_left_comm _ _ _
      rw [Finset.sum_congr rfl hfirst, Finset.sum_comm]
      apply Finset.sum_congr rfl
      intro m hm
      rw [← Finset.mul_sum, ih hplaces (Finset.mem_Ioc.mp hm).2]
    · -- the first place is left out
      rw [← ih hplaces hij, Finset.mul_sum]
      apply Finset.sum_congr rfl
      intro t ht
      rw [Omission.filter_insert hp, Finset.prod_insert (hsub ht), mul_assoc]

end Weights

/-! ## A rule and its variants -/

namespace Omission

/-- What a symbol weighs on an empty span: its mass if it can be empty. -/
def emptyWeight [Zero K] (nullable : List Category) (mass : Category → K) (s : Category) : K :=
  if nullable.contains s then mass s else 0

/-- **What the ways to use a rule weigh on a span**: what its right side weighs, whose symbols may
get nothing. -/
theorem sum_ways_spanWeight [CommSemiring K] (nullable rhs : List Category) (mass : Category → K)
    (weight : Category → ℕ → ℕ → K) {i j : ℕ} (hij : i < j) :
    ∑ o ∈ (ways nullable rhs).toFinset, (o.map fun place => mass place.1).prod
        * spanWeight (· < ·) weight (remaining rhs (o.map (·.2))) i j
      = spanWeight (· ≤ ·) (orEmpty (emptyWeight nullable mass) weight) rhs i j := by
  have hnodup := nodup_zipIdx rhs
  let share : Finset (Category × Nat) → K := fun t =>
    (∏ place ∈ t, emptyWeight nullable mass place.1)
      * spanWeight (· < ·) weight ((rhs.zipIdx.filter fun place => place ∉ t).map Prod.fst) i j
  calc ∑ o ∈ (ways nullable rhs).toFinset, (o.map fun place => mass place.1).prod
          * spanWeight (· < ·) weight (remaining rhs (o.map (·.2))) i j
      = ∑ o ∈ (ways nullable rhs).toFinset, share o.toFinset := by
        apply Finset.sum_congr rfl
        intro o ho
        have hsub := (sublist_of_mem_ways (List.mem_toFinset.mp ho)).1
        have hmass : o.map (fun place => mass place.1)
            = o.map fun place => emptyWeight nullable mass place.1 := by
          refine List.map_congr_left fun place hplace => (if_pos ?_).symm
          obtain ⟨rfl | homission, _⟩ := mem_ways.mp (List.mem_toFinset.mp ho)
          · cases hplace
          · exact (getElem?_of_mem_omission homission hplace).2
        rw [hmass, remaining_eq hsub, ← List.prod_toFinset _ (hnodup.sublist hsub)]
    _ = ∑ t ∈ rhs.zipIdx.toFinset.powerset, share t := by
        refine sum_ways (fun t ht => ?_) ?_
        · obtain ⟨place, hplace, hno⟩ := ht
          exact mul_eq_zero_of_left (Finset.prod_eq_zero hplace (if_neg hno)) _
        · -- nothing is left for a span that is not empty
          have hnone : (rhs.zipIdx.filter fun place => place ∉ rhs.zipIdx.toFinset) = [] := by
            simp
          simp only [share, hnone, List.map_nil, spanWeight_nil fun _ _ h => Nat.le_of_lt h,
            if_neg hij.ne, mul_zero]
    _ = spanWeight (· ≤ ·) (orEmpty (emptyWeight nullable mass) weight) rhs i j := by
        rw [sum_powerset_spanWeight _ hnodup hij.le, List.zipIdx_map_fst]

theorem ways_eq {nullable rhs : List Category} (hne : rhs ≠ []) :
    ways nullable rhs = [] :: omissions nullable rhs := by
  refine List.filter_eq_self.mpr fun o ho => bne_iff_ne.mpr ?_
  rcases List.mem_cons.mp ho with rfl | ho
  · exact fun hlen => hne (List.length_eq_zero_iff.mp hlen.symm)
  · exact (mem_omissions.mp ho).2.2

/-- The ways to use a rule, added up one by one. -/
theorem sum_ways_toFinset [AddCommMonoid K] {nullable rhs : List Category} (hne : rhs ≠ [])
    (f : List (Category × Nat) → K) :
    ∑ o ∈ (ways nullable rhs).toFinset, f o = f [] + ((omissions nullable rhs).map f).sum := by
  have hnil : [] ∉ omissions nullable rhs := by
    intro hmem
    exact absurd (mem_omissions.mp hmem).2.1 (Nat.not_succ_le_zero 0)
  have hnodup := List.nodup_cons.mpr ⟨hnil, nodup_omissions nullable rhs⟩
  rw [ways_eq hne, List.sum_toFinset _ hnodup, List.map_cons, List.sum_cons]

section Exact

variable [Field K] [LinearOrder K] [IsStrictOrderedRing K] {A : ScoreAlgebra K W}
  {nullable : List Category} {mass best : Category → K} {r : Rule K W}

/-- A production that came out of a rule by leaving out some of its symbols, which all can be
empty. -/
structure IsVariant (nullable : List Category) (r : Rule K W) (q : Production K W) : Prop where
  source : q.rule.source? = some r
  lhs : q.rule.lhs = r.lhs
  omitted : ∀ place ∈ q.rule.omitted, ∃ (m : ℕ) (s : Category),
    place = m ∧ r.rhs[m]? = some s ∧ nullable.contains s = true
  rhs : q.rule.rhs
    = (r.rhs.zipIdx.filter fun place => (place.2 : ℤ) ∉ q.rule.omitted).map Prod.fst

/-- What comes of a rule when empty symbols are left out: nothing of an empty one, of any other the
rule itself and variants of it. On every span that is not empty they weigh what the rule does with
symbols that can get nothing, whatever the symbols weigh on spans that are not empty. -/
structure KeepsSpanWeights (nullable : List Category) (mass : Category → K) (r : Rule K W)
    (group : List (Production K W)) : Prop where
  stems : r.rhs = [] ∧ group = [] ∨
    ∃ vs, group = .ofRule r :: vs ∧ ∀ q ∈ vs, IsVariant nullable r q
  rhs_ne : ∀ q ∈ group, q.rule.rhs ≠ []
  weight : ∀ (weight : Category → ℕ → ℕ → K) (i j : ℕ), i < j →
    r.probability * spanWeight (· ≤ ·) (orEmpty (emptyWeight nullable mass) weight) r.rhs i j
      = (group.map fun q => q.rule.probability * spanWeight (· < ·) weight q.rule.rhs i j).sum

omit [IsStrictOrderedRing K] in
theorem isVariant_production {o : List (Category × Nat)} (ho : o ∈ omissions nullable r.rhs) :
    IsVariant nullable r (production A mass best r o) where
  source := rfl
  lhs := rfl
  omitted := by
    intro place hplace
    obtain ⟨m, hm, rfl⟩ := List.mem_map.mp hplace
    obtain ⟨entry, hentry, rfl⟩ := List.mem_map.mp hm
    exact ⟨entry.2, entry.1, rfl, getElem?_of_mem_omission ho hentry⟩
  rhs := by
    refine congrArg (List.map Prod.fst) (List.filter_congr fun place _ => ?_)
    show (!(o.map (·.2)).contains place.2) = decide ((place.2 : ℤ) ∉ (o.map (·.2)).map Int.ofNat)
    simp

/-- A variant without any probability is worth nothing, so dropping it loses nothing. -/
theorem scaled_eq_zero (hr : 0 ≤ r.probability)
    (hmass : ∀ s, nullable.contains s = true → 0 ≤ mass s) {o : List (Category × Nat)}
    (ho : o ∈ omissions nullable r.rhs) (h : scaled mass r o ≤ 0) : scaled mass r o = 0 := by
  refine le_antisymm h (mul_nonneg hr ?_)
  rw [Probability.prod_eq]
  refine List.prod_nonneg fun w hw => ?_
  obtain ⟨place, hplace, rfl⟩ := List.mem_map.mp hw
  exact hmass _ (getElem?_of_mem_omission ho hplace).2

theorem sum_variants_eq (hr : 0 ≤ r.probability)
    (hmass : ∀ s, nullable.contains s = true → 0 ≤ mass s) {vs : List (Production K W)}
    (hvs : variants A nullable mass best r = .ok vs) (f : List Category → K) :
    (vs.map fun q => q.rule.probability * f q.rule.rhs).sum
      = ((omissions nullable r.rhs).map fun o =>
          scaled mass r o * f (remaining r.rhs (o.map (·.2)))).sum := by
  rw [eq_of_variants hvs, List.map_map]
  refine (sum_map_filter (fun o => ¬ scaled mass r o ≤ 0) _ _).trans ?_
  refine congrArg List.sum (List.map_congr_left fun o ho => ?_)
  split
  · rfl
  · rename_i hdropped
    rw [scaled_eq_zero hr hmass ho (not_not.mp hdropped), zero_mul]

/-- A rule and its variants are its ways, added up. -/
theorem probability_mul_spanWeight (hr : 0 ≤ r.probability)
    (hmass : ∀ s, nullable.contains s = true → 0 ≤ mass s) (hrhs : r.rhs ≠ [])
    {vs : List (Production K W)} (hvs : variants A nullable mass best r = .ok vs)
    (weight : Category → ℕ → ℕ → K) {i j : ℕ} (hij : i < j) :
    r.probability * spanWeight (· ≤ ·) (orEmpty (emptyWeight nullable mass) weight) r.rhs i j
      = r.probability * spanWeight (· < ·) weight r.rhs i j
        + (vs.map fun q => q.rule.probability * spanWeight (· < ·) weight q.rule.rhs i j).sum := by
  rw [sum_variants_eq hr hmass hvs fun symbols => spanWeight (· < ·) weight symbols i j,
    ← sum_ways_spanWeight nullable r.rhs mass weight hij, Finset.mul_sum, sum_ways_toFinset hrhs]
  refine congrArg₂ (· + ·) ?_ (congrArg List.sum (List.map_congr_left fun o _ => ?_))
  · rw [List.map_nil, List.prod_nil, one_mul, List.map_nil, remaining_nil]
  · rw [scaled, Probability.prod_eq, mul_assoc]

theorem expand_keepsSpanWeights (hr : 0 ≤ r.probability)
    (hmass : ∀ s, nullable.contains s = true → 0 ≤ mass s) {qs : List (Production K W)}
    (h : expand A nullable mass best r = .ok qs) : KeepsSpanWeights nullable mass r qs := by
  rcases expand_eq_ok h with ⟨hrhs, rfl⟩ | ⟨hrhs, vs, hvs, rfl⟩
  · refine ⟨.inl ⟨hrhs, rfl⟩, fun q hq => absurd hq List.not_mem_nil, fun weight i j hij => ?_⟩
    rw [hrhs, spanWeight_nil fun _ _ h => h, if_neg hij.ne, mul_zero]
    rfl
  · refine ⟨.inr ⟨vs, rfl, fun q hq => ?_⟩, fun q hq => ?_, fun weight i j hij =>
      probability_mul_spanWeight hr hmass hrhs hvs weight hij⟩
    · rw [eq_of_variants hvs] at hq
      obtain ⟨o, ho, rfl⟩ := List.mem_map.mp hq
      exact isVariant_production (List.mem_filter.mp ho).1
    · cases ((mem_expand h q).mp hq).2 with
      | whole => exact hrhs
      | variant ho => exact remaining_ne_nil ho

/-- **Leaving out empty symbols keeps the weights of spans.** The rules that come out are grouped by
the rules that they came of, and what each group weighs on a span that is not empty is what its rule
weighs there with symbols that can get nothing. -/
theorem eliminate_keeps_span_weights {rules : List (Rule K W)} {out : List (Production K W)}
    (hrules : ∀ r ∈ rules, 0 ≤ r.probability)
    (hmass : ∀ s, nullable.contains s = true → 0 ≤ mass s)
    (h : eliminate A nullable mass best rules = .ok out) :
    ∃ groups, out = groups.flatten ∧
      List.Forall₂ (KeepsSpanWeights nullable mass) rules groups := by
  obtain ⟨groups, hgroups, h⟩ := bind_eq_ok.mp h
  refine ⟨groups, (Except.ok.inj h).symm, ?_⟩
  have hall := (List.forall₂_and_left _ _).mpr ⟨hrules, mapM_eq_ok_iff.mp hgroups⟩
  exact hall.imp fun r qs hr => expand_keepsSpanWeights hr.1 hmass hr.2

end Exact

/-- A rule with one symbol twice, and the rule that lets the symbol be empty. -/
def twiceEmptyRules : List (Rule ℚ ℚ) :=
  [.given ⟨⟨.plain, .name "S", [.name "A", .name "A"]⟩, 1, 1, [], 0⟩,
    .given ⟨⟨.plain, .name "A", []⟩, 1 / 2, 1 / 2, [], 0⟩]

/-- Either of the two symbols is left out, but not both: what comes of the first rule is the rule
itself and two variants that say the same, and nothing comes of the second. -/
theorem twiceEmptyRules_keep_span_weights :
    ∃ out, eliminate (linearScores ℚ) [.name "A"] (fun _ => 1 / 2) (fun _ => 1 / 2)
        twiceEmptyRules = .ok out ∧
      out.map (·.rule.rhs) = [[.name "A", .name "A"], [.name "A"], [.name "A"]] ∧
      ∃ groups, out = groups.flatten ∧
        List.Forall₂ (KeepsSpanWeights [.name "A"] fun _ => 1 / 2) twiceEmptyRules groups := by
  have hcheck : ((eliminate (linearScores ℚ) [.name "A"] (fun _ => 1 / 2) (fun _ => 1 / 2)
      twiceEmptyRules).toOption.any fun out =>
        decide (out.map (·.rule.rhs) = [[.name "A", .name "A"], [.name "A"], [.name "A"]]))
      = true := by
    decide +kernel
  obtain ⟨out, hout, hrhs⟩ := any_toOption.mp hcheck
  have hrules : ∀ r ∈ twiceEmptyRules, 0 ≤ r.probability := by
    decide +kernel
  have hmass : ∀ s : Category, [Category.name "A"].contains s = true → (0 : ℚ) ≤ 1 / 2 := by
    intro s _
    norm_num
  exact ⟨out, hout, of_decide_eq_true hrhs, eliminate_keeps_span_weights hrules hmass hout⟩

end Omission
end StochasticGrammar
