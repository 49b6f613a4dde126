import StochasticGrammar.Proofs.Emptiness
import StochasticGrammar.Proofs.Prefixes
import StochasticGrammar.Proofs.Refusal

/-!
# Inner scores are probabilities

If the probabilities of no category sum up to more than one, then neither do those of its
derivations: of all derivations whose tokens begin some given tokens, together with the empty ones.
That is shown for derivations of bounded height, by induction. A rule counts once for every way to
leave out symbols that can be empty, and these ways share out a product: for every symbol, it is
left out or it is not. The way that leaves out everything is the part that belongs to the empty
derivations.

> `begunMass_le`: derivations of bounded height.

> `massAll_le_one`: all derivations of some tokens from a string of symbols.
-/

namespace StochasticGrammar

open scoped ENNReal Classical

/-! ## Heights -/

namespace Derivation

variable {P W : Type}

/-- The number of rules on the longest way down. -/
def height : Derivation P W → Nat :=
  fold (fun _ _ => 0) fun _ hs => hs.foldr max 0 + 1

theorem height_node_le {r : Rule P W} {ds : List (Derivation P W)} {n : Nat} :
    (node r ds).height ≤ n + 1 ↔ ∀ d ∈ ds, d.height ≤ n := by
  have hnode : (node r ds).height = (ds.map height).foldr max 0 + 1 := by
    unfold height
    rw [fold, foldAll_eq]
  rw [hnode, Nat.succ_le_succ_iff]
  clear hnode
  induction ds with
  | nil => simp
  | cons d ds ih => simp [ih]

/-- A node is one rule higher than the highest of its children. -/
theorem exists_height_node (r : Rule P W) (ds : List (Derivation P W)) :
    ∃ n, (node r ds).height = n + 1 ∧ (∀ d ∈ ds, d.height ≤ n) ∧
      (n = 0 ∨ ∃ d ∈ ds, d.height = n) := by
  obtain ⟨n, hn⟩ : ∃ n, (node r ds).height = n + 1 := ⟨_, rfl⟩
  have hle := height_node_le.mp hn.le
  refine ⟨n, hn, hle, ?_⟩
  cases n with
  | zero => exact .inl rfl
  | succ n =>
    have hlow : ¬ ∀ d ∈ ds, d.height ≤ n := by
      rw [← height_node_le (r := r), hn]
      omega
    obtain ⟨d, hd, hhigh⟩ : ∃ d ∈ ds, n < d.height := by
      simpa only [not_forall, exists_prop, not_le] using hlow
    exact .inr ⟨d, hd, le_antisymm (hle d hd) hhigh⟩

end Derivation

namespace Grammar

variable {W : Type}

/-! ## Derivations that begin some tokens -/

/-- The mass of the derivations from a category, of bounded height, whose tokens begin some
tokens. -/
noncomputable def begunMass (G : Grammar ℝ W) (n : Nat) (x : Category) (tokens : List Payload) :
    ℝ≥0∞ :=
  tsum fun d : Derivation ℝ W => if d.root = x ∧ d.height ≤ n ∧ d.tokens <+: tokens then
    G.mass d else 0

/-- The same from a string of symbols. -/
noncomputable def begunMassAll (G : Grammar ℝ W) (n : Nat) (symbols : List Category)
    (tokens : List Payload) : ℝ≥0∞ :=
  tsum fun ds : List (Derivation ℝ W) => if ds.map Derivation.root = symbols ∧
      (∀ d ∈ ds, d.height ≤ n) ∧ ds.flatMap Derivation.tokens <+: tokens then
    (ds.map G.mass).prod else 0

variable {G : Grammar ℝ W}

/-- What begins a string begins with its first symbol, and goes on behind the tokens of that. -/
theorem begunMassAll_cons_le {n : Nat} {x : Category} {symbols : List Category} {c : ℝ≥0∞}
    (hc : ∀ tokens, G.begunMassAll n symbols tokens ≤ c) (tokens : List Payload) :
    G.begunMassAll n (x :: symbols) tokens ≤ G.begunMass n x tokens * c := by
  have hinj : Function.Injective fun p : Derivation ℝ W × List (Derivation ℝ W) => p.1 :: p.2 := by
    rintro ⟨d, ds⟩ ⟨d', ds'⟩ heq
    obtain ⟨hd, hds⟩ := List.cons.inj heq
    exact Prod.ext hd hds
  -- strings of derivations are summed by their first, and those behind it by where it ends
  unfold begunMassAll begunMass
  rw [← hinj.tsum_eq, ENNReal.tsum_prod', ← ENNReal.tsum_mul_right]
  · refine ENNReal.tsum_le_tsum fun d => ?_
    by_cases hd : d.root = x ∧ d.height ≤ n ∧ d.tokens <+: tokens
    · rw [if_pos hd]
      obtain ⟨hroot, hheight, rest, rfl⟩ := hd
      refine le_trans (le_of_eq ?_) (mul_le_mul_right (hc rest) (G.mass d))
      unfold begunMassAll
      rw [← ENNReal.tsum_mul_left]
      refine tsum_congr fun ds => ?_
      simp only [List.map_cons, List.flatMap_cons, List.prefix_append_right_inj,
        List.forall_mem_cons, List.cons.injEq, hroot, hheight, true_and, List.prod_cons, mul_ite,
        mul_zero]
    · rw [if_neg hd, zero_mul, nonpos_iff_eq_zero, ENNReal.tsum_eq_zero]
      intro ds
      rw [if_neg]
      rintro ⟨hroots, hheights, hprefix⟩
      rw [List.flatMap_cons] at hprefix
      exact hd ⟨(List.cons.inj hroots).1, hheights d List.mem_cons_self,
        (List.prefix_append _ _).trans hprefix⟩
  · intro ds hds
    cases ds with
    | nil => simp at hds
    | cons d ds => exact ⟨(d, ds), rfl⟩

/-- A string is bounded by the product of the bounds of its symbols. -/
theorem begunMassAll_le {n : Nat} {bound : Category → ℝ≥0∞}
    (hbound : ∀ x tokens, G.begunMass n x tokens ≤ bound x) (symbols : List Category)
    (tokens : List Payload) : G.begunMassAll n symbols tokens ≤ (symbols.map bound).prod := by
  induction symbols generalizing tokens with
  | nil =>
    unfold begunMassAll
    rw [tsum_eq_single []]
    · simp
    · intro ds hds
      rw [if_neg]
      rintro ⟨hroots, _⟩
      exact hds (List.map_eq_nil_iff.mp hroots)
  | cons x symbols ih =>
    rw [List.map_cons, List.prod_cons]
    exact (begunMassAll_cons_le ih tokens).trans (mul_le_mul_left (hbound x tokens) _)

/-- What bounds the derivations of every height bounds all of them. -/
theorem massAll_le {symbols : List Category} {tokens : List Payload} {c : ℝ≥0∞}
    (hc : ∀ n, G.begunMassAll n symbols tokens ≤ c) : G.massAll symbols tokens ≤ c := by
  unfold massAll
  rw [ENNReal.tsum_eq_iSup_sum]
  refine iSup_le fun s => ?_
  -- finitely many derivations have a greatest height
  obtain ⟨n, hn⟩ : ∃ n, ∀ ds ∈ s, ∀ d ∈ ds, d.height ≤ n := by
    refine ⟨s.sup fun ds => (ds.map Derivation.height).sum, fun ds hds d hd => ?_⟩
    exact (List.le_sum_of_mem (List.mem_map_of_mem hd)).trans
      (Finset.le_sup (f := fun ds : List (Derivation ℝ W) => (ds.map Derivation.height).sum) hds)
  refine le_trans ((Finset.sum_le_sum fun ds hds => ?_).trans (ENNReal.sum_le_tsum s)) (hc n)
  split
  · rename_i h
    rw [if_pos ⟨h.1, hn ds hds, h.2 ▸ List.prefix_rfl⟩]
  · exact zero_le

variable [DecidableEq W] {solver : Solver ℝ}

/-- A category that is not expanded derives at most the first of some tokens. -/
theorem begunMass_le_one (hG : G.Compiled solver) {n : Nat} {x : Category} (hx : x ∉ G.names)
    (tokens : List Payload) : G.begunMass n x tokens ≤ 1 := by
  have hnode : ∀ (r : Rule ℝ W) ds, r.lhs = x → G.mass (.node r ds) = 0 := by
    rintro r ds rfl
    exact mass_node_of_not_mem hG hx ds
  unfold begunMass
  rcases tokens with _ | ⟨t, tokens⟩
  · rw [ENNReal.tsum_eq_zero.mpr]
    · exact zero_le
    · intro d
      split
      · rename_i h
        exact mass_eq_zero_of_tokens hG (List.prefix_nil.mp h.2.2)
      · rfl
  · rw [tsum_eq_single (.leaf x t)]
    · split
      · rw [mass_leaf]
        split
        · exact le_refl 1
        · exact zero_le
      · exact zero_le
    · intro d hd
      split
      · rename_i h
        cases d with
        | leaf c u =>
          obtain ⟨rfl, _, hprefix⟩ := h
          rw [(List.cons_prefix_cons.mp hprefix).1] at hd
          exact absurd rfl hd
        | node r ds => exact hnode r ds h.1
      · rfl

/-- A category that is expanded has a rule at the root, and lower derivations below it. -/
theorem begunMass_succ (hG : G.Compiled solver) {n : Nat} {x : Category} (hx : x ∈ G.names)
    (tokens : List Payload) :
    G.begunMass (n + 1) x tokens = ∑ r ∈ G.usedRules, if r.lhs = x then
      ENNReal.ofReal r.probability * G.begunMassAll n r.rhs tokens else 0 := by
  unfold begunMass begunMassAll
  rw [tsum_roots hG (hG.isNonterminal_iff.mpr hx)
    fun d => d.height ≤ n + 1 ∧ d.tokens <+: tokens, tsum_eq_sum (s := G.usedRules)]
  · refine Finset.sum_congr rfl fun r hr => ?_
    simp only [hG.mem_usedRules.mp hr, true_and, Derivation.height_node_le, Derivation.tokens_node]
  · intro r hr
    exact if_neg fun h => hr (hG.mem_usedRules.mpr h.1)

/-- A node has a height, so that a category that is expanded has no derivation of height zero. -/
theorem begunMass_zero (hG : G.Compiled solver) {x : Category} (hx : x ∈ G.names)
    (tokens : List Payload) : G.begunMass 0 x tokens = 0 := by
  unfold begunMass
  rw [tsum_roots hG (hG.isNonterminal_iff.mpr hx) fun d => d.height ≤ 0 ∧ d.tokens <+: tokens,
    ENNReal.tsum_eq_zero]
  intro r
  split
  · rw [ENNReal.tsum_eq_zero.mpr, mul_zero]
    intro ds
    rw [if_neg]
    rintro ⟨_, hheight, _⟩
    exact Nat.not_succ_le_zero _ hheight
  · rfl

end Grammar

/-! ## Leaving out symbols -/

namespace Omission

/-- The ways to use a rule: as it is, and with each omission. -/
def ways (nullable rhs : List Category) : List (List (Category × Nat)) :=
  ([] :: omissions nullable rhs).filter fun o => o.length != rhs.length

theorem mem_ways {nullable rhs : List Category} {o : List (Category × Nat)} :
    o ∈ ways nullable rhs ↔ (o = [] ∨ o ∈ omissions nullable rhs) ∧ o.length ≠ rhs.length := by
  simp [ways]

/-- A way leaves out places of the right side, from left to right, but not all of them. -/
theorem sublist_of_mem_ways {nullable rhs : List Category} {o : List (Category × Nat)}
    (ho : o ∈ ways nullable rhs) : o.Sublist rhs.zipIdx ∧ o.length ≠ rhs.length := by
  obtain ⟨rfl | ho, hlen⟩ := mem_ways.mp ho
  · exact ⟨List.nil_sublist _, hlen⟩
  · exact ⟨(mem_omissions.mp ho).1.trans List.filter_sublist, hlen⟩

theorem pairwise_zipIdx (rhs : List Category) : rhs.zipIdx.Pairwise fun a b => a.2 < b.2 := by
  rw [← List.pairwise_map (f := Prod.snd) (R := (· < ·)), List.zipIdx_map_snd]
  exact List.pairwise_lt_range'

theorem nodup_zipIdx (rhs : List Category) : rhs.zipIdx.Nodup :=
  (pairwise_zipIdx rhs).imp fun hab heq => (heq ▸ hab).false

/-- A way is settled by the set of places that it leaves out. -/
theorem eq_of_toFinset_eq {rhs : List Category} {o o' : List (Category × Nat)}
    (ho : o.Sublist rhs.zipIdx) (ho' : o'.Sublist rhs.zipIdx) (h : o.toFinset = o'.toFinset) :
    o = o' := by
  have hsorted := pairwise_zipIdx rhs
  have hperm : o.Perm o' := List.perm_of_nodup_nodup_toFinset_eq ((nodup_zipIdx rhs).sublist ho)
    ((nodup_zipIdx rhs).sublist ho') h
  refine hperm.eq_of_pairwise (fun a b _ _ hab hba => ?_) (hsorted.sublist ho) (hsorted.sublist ho')
  exact absurd hba (Nat.lt_asymm hab)

/-- What stays is what is not left out. -/
theorem remaining_eq {rhs : List Category} {o : List (Category × Nat)} (ho : o.Sublist rhs.zipIdx) :
    remaining rhs (o.map (·.2))
      = (rhs.zipIdx.filter fun place => place ∉ o.toFinset).map Prod.fst := by
  -- a place of the right side is known by its number
  have hplace : ∀ place ∈ rhs.zipIdx, place.2 ∈ o.map (·.2) ↔ place ∈ o := by
    intro place hplace
    constructor
    · intro hmem
      obtain ⟨place', hmem', heq⟩ := List.mem_map.mp hmem
      have h := List.mem_zipIdx_iff_getElem?.mp hplace
      have h' := List.mem_zipIdx_iff_getElem?.mp (ho.subset hmem')
      rw [heq, h] at h'
      rw [Prod.ext (Option.some.inj h') heq.symm]
      exact hmem'
    · exact fun hmem => List.mem_map_of_mem hmem
  refine congrArg (List.map Prod.fst) (List.filter_congr fun place hmem => ?_)
  rw [Bool.eq_iff_iff, decide_eq_true_iff, List.mem_toFinset, ← hplace place hmem]
  simp

theorem prod_remaining {rhs : List Category} {o : List (Category × Nat)}
    (ho : o.Sublist rhs.zipIdx) (f : Category → ℝ) :
    ((remaining rhs (o.map (·.2))).map f).prod
      = ∏ place ∈ rhs.zipIdx.toFinset \ o.toFinset, f place.1 := by
  rw [remaining_eq ho, List.map_map, ← List.prod_toFinset _ ((nodup_zipIdx rhs).filter _)]
  refine Finset.prod_congr ?_ fun _ _ => rfl
  ext place
  rw [List.mem_toFinset, List.mem_filter, Finset.mem_sdiff, decide_eq_true_iff,
    List.mem_toFinset (l := rhs.zipIdx)]

/-- A place that is left out leaves the others as they are. -/
theorem filter_insert {places : List (Category × Nat)} {p : Category × Nat} (hp : p ∉ places)
    (t : Finset (Category × Nat)) :
    ((p :: places).filter fun place => place ∉ insert p t)
      = places.filter fun place => place ∉ t := by
  rw [List.filter_cons_of_neg (by simp)]
  refine List.filter_congr fun place hplace => ?_
  have hne : place ≠ p := fun heq => hp (heq ▸ hplace)
  simp [hne]

/-- What keeps a place, and leaves out only what can be empty, is one of the ways. -/
theorem exists_way_of_subset {nullable rhs : List Category} {t : Finset (Category × Nat)}
    (ht : t ⊆ rhs.zipIdx.toFinset) (hnull : ∀ place ∈ t, nullable.contains place.1 = true)
    (hne : t ≠ rhs.zipIdx.toFinset) : ∃ o ∈ ways nullable rhs, o.toFinset = t := by
  have hset : (rhs.zipIdx.filter fun place => place ∈ t).toFinset = t := by
    ext place
    rw [List.mem_toFinset, List.mem_filter, decide_eq_true_iff]
    exact ⟨And.right, fun hmem => ⟨List.mem_toFinset.mp (ht hmem), hmem⟩⟩
  have hcandidates :
      (rhs.zipIdx.filter fun place => place ∈ t).Sublist (candidates nullable rhs) := by
    refine List.monotone_filter_right _ fun place hmem => ?_
    exact hnull place (of_decide_eq_true hmem)
  have hlength : (rhs.zipIdx.filter fun place => place ∈ t).length ≠ rhs.length := by
    intro hlen
    rw [← List.length_zipIdx (i := 0) (l := rhs)] at hlen
    exact hne (hset.symm.trans (congrArg List.toFinset (List.filter_sublist.eq_of_length hlen)))
  refine ⟨_, mem_ways.mpr ⟨?_, hlength⟩, hset⟩
  by_cases hnil : (rhs.zipIdx.filter fun place => place ∈ t) = []
  · exact .inl hnil
  · exact .inr (mem_omissions.mpr ⟨hcandidates, List.length_pos_iff.mpr hnil, hlength⟩)

/-- The ways to use a rule are told apart by what they leave out. -/
theorem sum_image_ways {M : Type} [AddCommMonoid M] (nullable rhs : List Category)
    (share : Finset (Category × Nat) → M) :
    ∑ o ∈ (ways nullable rhs).toFinset, share o.toFinset
      = ∑ t ∈ (ways nullable rhs).toFinset.image List.toFinset, share t := by
  refine (Finset.sum_image fun o ho o' ho' h => ?_).symm
  exact eq_of_toFinset_eq (sublist_of_mem_ways (List.mem_toFinset.mp ho)).1
    (sublist_of_mem_ways (List.mem_toFinset.mp ho')).1 h

/-- **The ways to use a rule are the choices of what to leave out**, if neither leaving out
everything nor leaving out what is never empty counts for anything. -/
theorem sum_ways {M : Type} [AddCommMonoid M] {nullable rhs : List Category}
    {share : Finset (Category × Nat) → M}
    (hnull : ∀ t, (∃ place ∈ t, ¬ nullable.contains place.1 = true) → share t = 0)
    (hall : share rhs.zipIdx.toFinset = 0) :
    ∑ o ∈ (ways nullable rhs).toFinset, share o.toFinset
      = ∑ t ∈ rhs.zipIdx.toFinset.powerset, share t := by
  rw [sum_image_ways]
  refine Finset.sum_subset (fun t ht => ?_) fun t ht hout => ?_
  · obtain ⟨o, ho, rfl⟩ := Finset.mem_image.mp ht
    refine Finset.mem_powerset.mpr fun place hplace => ?_
    have hsub := (sublist_of_mem_ways (List.mem_toFinset.mp ho)).1
    exact List.mem_toFinset.mpr (hsub.subset (List.mem_toFinset.mp hplace))
  · by_contra hshare
    have hempty : ∀ place ∈ t, nullable.contains place.1 = true := by
      intro place hplace
      by_contra hno
      exact hshare (hnull t ⟨place, hplace, hno⟩)
    have hkept : t ≠ rhs.zipIdx.toFinset := fun heq => hshare (heq ▸ hall)
    obtain ⟨o, ho, rfl⟩ := exists_way_of_subset (Finset.mem_powerset.mp ht) hempty hkept
    exact hout (Finset.mem_image_of_mem _ (List.mem_toFinset.mpr ho))

/-- **The ways to use a rule share out a product**: every symbol is left out or it is not, and what
is missing is the way that leaves out everything. -/
theorem sum_ways_le (nullable rhs : List Category) {e : Category → ℝ}
    (he : ∀ x, 0 ≤ e x ∧ e x ≤ 1) :
    ∑ o ∈ (ways nullable rhs).toFinset, (o.map fun place => e place.1).prod
        * ((remaining rhs (o.map (·.2))).map fun x => 1 - e x).prod
      ≤ 1 - (rhs.map e).prod := by
  have hnodup := nodup_zipIdx rhs
  have hways : ∀ {o}, o ∈ (ways nullable rhs).toFinset →
      o.Sublist rhs.zipIdx ∧ o.length ≠ rhs.length :=
    fun ho => sublist_of_mem_ways (List.mem_toFinset.mp ho)
  -- sets of places share out the product of `e + (1 - e)` over all of them, which is one
  let share : Finset (Category × Nat) → ℝ := fun t =>
    (∏ place ∈ t, e place.1) * ∏ place ∈ rhs.zipIdx.toFinset \ t, (1 - e place.1)
  have hshare : ∀ t, 0 ≤ share t := fun t => mul_nonneg
    (Finset.prod_nonneg fun _ _ => (he _).1)
    (Finset.prod_nonneg fun _ _ => sub_nonneg.mpr (he _).2)
  have hall : share rhs.zipIdx.toFinset = (rhs.map e).prod := by
    have hprod : ∏ place ∈ rhs.zipIdx.toFinset, e place.1 = (rhs.map e).prod := by
      rw [List.prod_toFinset _ hnodup, ← Function.comp_def e Prod.fst, ← List.map_map,
        List.zipIdx_map_fst]
    simp only [share, Finset.sdiff_self, Finset.prod_empty, mul_one, hprod]
  calc ∑ o ∈ (ways nullable rhs).toFinset, (o.map fun place => e place.1).prod
          * ((remaining rhs (o.map (·.2))).map fun x => 1 - e x).prod
      = ∑ o ∈ (ways nullable rhs).toFinset, share o.toFinset := by
        refine Finset.sum_congr rfl fun o ho => ?_
        obtain ⟨hsub, _⟩ := hways ho
        rw [prod_remaining hsub, ← List.prod_toFinset _ (hnodup.sublist hsub)]
    _ = ∑ t ∈ (ways nullable rhs).toFinset.image List.toFinset, share t := sum_image_ways _ _ share
    _ ≤ ∑ t ∈ rhs.zipIdx.toFinset.powerset.erase rhs.zipIdx.toFinset, share t := by
        refine Finset.sum_le_sum_of_subset_of_nonneg (fun t ht => ?_) fun t _ _ => hshare t
        obtain ⟨o, ho, rfl⟩ := Finset.mem_image.mp ht
        obtain ⟨hsub, hlen⟩ := hways ho
        refine Finset.mem_erase.mpr
          ⟨fun heq => hlen ?_, Finset.mem_powerset.mpr fun place hplace => ?_⟩
        · have hcard := congrArg Finset.card heq
          rwa [List.toFinset_card_of_nodup (hnodup.sublist hsub),
            List.toFinset_card_of_nodup hnodup, List.length_zipIdx] at hcard
        · exact List.mem_toFinset.mpr (hsub.subset (List.mem_toFinset.mp hplace))
    _ = 1 - (rhs.map e).prod := by
        rw [eq_sub_iff_add_eq, ← hall, Finset.sum_erase_add _ _ (Finset.mem_powerset_self _),
          ← Finset.prod_add]
        exact Finset.prod_eq_one fun place _ => add_sub_cancel _ _

theorem remaining_nil (rhs : List Category) : remaining rhs [] = rhs := by
  simp [remaining]

end Omission

/-! ## Grammars whose probabilities do not exceed one -/

namespace Grammar

variable {W : Type} [DecidableEq W] {solver : Solver ℝ} {G : Grammar ℝ W}

/-- The probabilities of the rules of no category sum up to more than one. -/
def IsSubproper (G : Grammar ℝ W) : Prop :=
  ∀ x ∈ G.names, ((G.sourceRulesOf x).map Rule.probability).sum ≤ 1

/-- In such a grammar no category is empty with a probability above one. -/
theorem IsSubproper.emptyProbability_mem_unit (h : G.IsSubproper) (hG : G.Compiled solver)
    (x : Category) : 0 ≤ G.emptyProbability x ∧ G.emptyProbability x ≤ 1 :=
  ⟨hG.emptyProbability_nonneg x, hG.emptyProbability_le_one h x⟩

/-- A rule as it is used in one of the ways. -/
noncomputable def usedAs (G : Grammar ℝ W) (r : Rule ℝ W) (o : List (Category × Nat)) : Rule ℝ W :=
  if o = [] then r
  else (Omission.production G.algebra G.emptyProbability G.bestEmptyProbability r o).rule

omit [DecidableEq W] in
theorem probability_usedAs (r : Rule ℝ W) (o : List (Category × Nat)) : (G.usedAs r o).probability
    = r.probability * (o.map fun place => G.emptyProbability place.1).prod := by
  unfold usedAs
  split
  · rename_i ho
    rw [ho, List.map_nil, List.prod_nil, mul_one]
  · exact congrArg _ (Probability.prod_eq _)

omit [DecidableEq W] in
theorem rhs_usedAs (r : Rule ℝ W) (o : List (Category × Nat)) :
    (G.usedAs r o).rhs = Omission.remaining r.rhs (o.map (·.2)) := by
  unfold usedAs
  split
  · rename_i ho
    rw [ho, List.map_nil, Omission.remaining_nil]
  · rfl

omit [DecidableEq W] in
/-- The rules that the parser uses are the given ones, each in one of its ways. -/
theorem Expansion.exists_way {r : Rule ℝ W} {q : Production ℝ W} (h : Expansion G r q) :
    ∃ o ∈ Omission.ways G.nullable r.rhs, G.usedAs r o = q.rule := by
  cases h.expands with
  | whole =>
    refine ⟨[], Omission.mem_ways.mpr ⟨.inl rfl, fun hlen => ?_⟩, if_pos rfl⟩
    exact h.rhs_ne (List.length_eq_zero_iff.mp hlen.symm)
  | @variant o ho =>
    obtain ⟨_, hpos, hlen⟩ := Omission.mem_omissions.mp ho
    refine ⟨o, Omission.mem_ways.mpr ⟨.inr ho, hlen⟩, if_neg ?_⟩
    rintro rfl
    exact absurd hpos (Nat.not_succ_le_zero 0)

/-- A way that keeps some probability is used. -/
theorem Compiled.uses_usedAs (hG : G.Compiled solver) {r : Rule ℝ W} (hr : r ∈ G.rules)
    {o : List (Category × Nat)} (ho : o ∈ Omission.ways G.nullable r.rhs)
    (hpos : (G.usedAs r o).probability ≠ 0) :
    G.Uses (G.usedAs r o) ∧ (G.usedAs r o).lhs = r.lhs := by
  obtain ⟨hcases, hlen⟩ := Omission.mem_ways.mp ho
  by_cases hnil : o = []
  · subst hnil
    have hne : r.rhs ≠ [] := fun hrhs => hlen (congrArg List.length hrhs).symm
    rw [usedAs, if_pos rfl]
    exact ⟨⟨r.lhs, .ofRule r, hG.mem_productionsOf.mpr ⟨rfl, r, hr, hne, .whole⟩, rfl⟩, rfl⟩
  · have hscaled : (G.usedAs r o).probability = Omission.scaled G.emptyProbability r o := by
      rw [usedAs, if_neg hnil]
      rfl
    have hnonneg : 0 ≤ (G.usedAs r o).probability := by
      rw [probability_usedAs]
      refine mul_nonneg (hG.probability_mem_unit hr).1.le (List.prod_nonneg fun w hw => ?_)
      obtain ⟨place, _, rfl⟩ := List.mem_map.mp hw
      exact hG.emptyProbability_nonneg place.1
    have hexp := hG.expansion_variant hr (hcases.resolve_left hnil)
      (hscaled ▸ not_le.mpr (lt_of_le_of_ne hnonneg hpos.symm))
    rw [usedAs, if_neg hnil]
    exact ⟨⟨_, _, hG.mem_productionsOf.mpr ⟨rfl, r, hexp⟩, rfl⟩, rfl⟩

/-- A rule that is used shows which rule it was, and in which way. -/
theorem Compiled.usedAs_inj (hG : G.Compiled solver) {r r' : Rule ℝ W} (hr : r ∈ G.rules)
    (hr' : r' ∈ G.rules) {o o' : List (Category × Nat)} (ho : o ∈ Omission.ways G.nullable r.rhs)
    (ho' : o' ∈ Omission.ways G.nullable r'.rhs) (h : G.usedAs r o = G.usedAs r' o') :
    r = r' ∧ o = o' := by
  obtain ⟨head, p, _, hgiven⟩ := hG.given r hr
  obtain ⟨head', p', _, hgiven'⟩ := hG.given r' hr'
  unfold usedAs at h
  split at h <;> split at h <;> rename_i hnil hnil'
  · exact ⟨h, hnil.trans hnil'.symm⟩
  · rw [hgiven] at h
    cases h
  · rw [hgiven'] at h
    cases h
  · have hsource : r = r' := by
      simp only [Omission.production, Rule.derived.injEq] at h
      exact h.2
    subst hsource
    have homitted := congrArg Rule.omitted h
    have hplaces : o.map (·.2) = o'.map (·.2) :=
      List.map_injective_iff.mpr Int.ofNat_injective homitted
    exact ⟨rfl, Omission.eq_of_places_eq ((Omission.mem_ways.mp ho).1.resolve_left hnil)
      ((Omission.mem_ways.mp ho').1.resolve_left hnil') hplaces⟩

theorem Compiled.nodup_sourceRulesOf (hG : G.Compiled solver) (x : Category) :
    (G.sourceRulesOf x).Nodup := by
  rw [Grammar.sourceRulesOf, hG.index, RuleIndex.rulesOf_ofRules]
  exact (hG.distinct.imp fun {a b} hne heq => hne (by rw [heq]; exact BEq.rfl)).filter _

/-- **The rules that the parser uses for a category** are its given rules in all their ways, as far
as these keep some probability. -/
theorem Compiled.sum_usedRules_eq (hG : G.Compiled solver) (x : Category) {f : Rule ℝ W → ℝ}
    (hf : ∀ r, r.probability = 0 → f r = 0) :
    (∑ r ∈ G.usedRules, if r.lhs = x then f r else 0)
      = ∑ r ∈ (G.sourceRulesOf x).toFinset, ∑ o ∈ (Omission.ways G.nullable r.rhs).toFinset,
          f (G.usedAs r o) := by
  let pairs := (G.sourceRulesOf x).toFinset.sigma fun r => (Omission.ways G.nullable r.rhs).toFinset
  have hpairs : ∀ {p}, p ∈ pairs →
      p.1 ∈ G.rules ∧ p.1.lhs = x ∧ p.2 ∈ Omission.ways G.nullable p.1.rhs := by
    intro p hp
    obtain ⟨hr, ho⟩ := Finset.mem_sigma.mp hp
    obtain ⟨hmem, hlhs⟩ := hG.sourceRulesOf.mp (List.mem_toFinset.mp hr)
    exact ⟨hmem, hlhs, List.mem_toFinset.mp ho⟩
  have hkept : ∑ p ∈ pairs.filter fun p => (G.usedAs p.1 p.2).probability ≠ 0, f (G.usedAs p.1 p.2)
      = ∑ p ∈ pairs, f (G.usedAs p.1 p.2) :=
    Finset.sum_filter_of_ne fun p _ hne hzero => hne (hf _ hzero)
  rw [← Finset.sum_filter, ← Finset.sum_sigma (G.sourceRulesOf x).toFinset
    (fun r => (Omission.ways G.nullable r.rhs).toFinset) fun p => f (G.usedAs p.1 p.2), ← hkept]
  refine (Finset.sum_of_injOn (fun p : (_ : Rule ℝ W) × List (Category × Nat) => G.usedAs p.1 p.2)
    ?_ ?_ ?_ fun _ _ => rfl).symm
  -- a rule that is used tells its source and the way it is used in
  · intro p hp p' hp' heq
    obtain ⟨hr, _, ho⟩ := hpairs (Finset.mem_filter.mp hp).1
    obtain ⟨hr', _, ho'⟩ := hpairs (Finset.mem_filter.mp hp').1
    obtain ⟨hrule, hway⟩ := hG.usedAs_inj hr hr' ho ho' heq
    exact Sigma.ext hrule (heq_of_eq hway)
  · intro p hp
    obtain ⟨hp, hpos⟩ := Finset.mem_filter.mp hp
    obtain ⟨hr, hlhs, ho⟩ := hpairs hp
    obtain ⟨huses, hlhs'⟩ := hG.uses_usedAs hr ho hpos
    exact Finset.mem_coe.mpr (Finset.mem_filter.mpr ⟨hG.mem_usedRules.mpr huses, hlhs'.trans hlhs⟩)
  · intro r hr hout
    obtain ⟨hmem, rfl⟩ := Finset.mem_filter.mp hr
    obtain ⟨_, q, hq, rfl⟩ := hG.mem_usedRules.mp hmem
    obtain ⟨_, r, hexp⟩ := hG.mem_productionsOf.mp hq
    obtain ⟨o, ho, heq⟩ := hexp.exists_way
    refine absurd ⟨⟨r, o⟩, Finset.mem_coe.mpr (Finset.mem_filter.mpr ⟨?_, ?_⟩), heq⟩ hout
    · refine Finset.mem_sigma.mpr ⟨List.mem_toFinset.mpr ?_, List.mem_toFinset.mpr ho⟩
      exact hG.sourceRulesOf.mpr ⟨hexp.mem, hexp.lhs.symm⟩
    · rw [heq]
      exact (hG.probability_pos_of_uses (hG.mem_usedRules.mp hmem)).ne'

/-- **A category is derived, by its rules and what is left of them, with the probability that it is
not empty at most.** -/
theorem IsSubproper.sum_usedRules_le (h : G.IsSubproper) (hG : G.Compiled solver) (x : Category) :
    (∑ r ∈ G.usedRules, if r.lhs = x then
      r.probability * (r.rhs.map fun y => 1 - G.emptyProbability y).prod else 0)
      ≤ 1 - G.emptyProbability x := by
  have hunit := h.emptyProbability_mem_unit hG
  have hnodup := hG.nodup_sourceRulesOf x
  have hsource : ∀ r ∈ (G.sourceRulesOf x).toFinset, 0 ≤ r.probability := fun r hr =>
    (hG.probability_mem_unit (hG.sourceRulesOf.mp (List.mem_toFinset.mp hr)).1).1.le
  rw [hG.sum_usedRules_eq x fun r hzero => by rw [hzero, zero_mul]]
  calc ∑ r ∈ (G.sourceRulesOf x).toFinset, ∑ o ∈ (Omission.ways G.nullable r.rhs).toFinset,
        (G.usedAs r o).probability
          * ((G.usedAs r o).rhs.map fun y => 1 - G.emptyProbability y).prod
      = ∑ r ∈ (G.sourceRulesOf x).toFinset, r.probability *
          ∑ o ∈ (Omission.ways G.nullable r.rhs).toFinset,
            (o.map fun place => G.emptyProbability place.1).prod
              * ((Omission.remaining r.rhs (o.map (·.2))).map
                  fun y => 1 - G.emptyProbability y).prod := by
        refine Finset.sum_congr rfl fun r _ => ?_
        rw [Finset.mul_sum]
        refine Finset.sum_congr rfl fun o _ => ?_
        simp only [probability_usedAs, rhs_usedAs, mul_assoc]
    _ ≤ ∑ r ∈ (G.sourceRulesOf x).toFinset,
          r.probability * (1 - (r.rhs.map G.emptyProbability).prod) :=
        Finset.sum_le_sum fun r hr =>
          mul_le_mul_of_nonneg_left (Omission.sum_ways_le _ _ hunit) (hsource r hr)
    _ = ((G.sourceRulesOf x).map Rule.probability).sum
          - ((G.sourceRulesOf x).map fun r =>
              r.probability * (r.rhs.map G.emptyProbability).prod).sum := by
        rw [← List.sum_toFinset _ hnodup, ← List.sum_toFinset _ hnodup, ← Finset.sum_sub_distrib]
        refine Finset.sum_congr rfl fun r _ => ?_
        ring
    _ ≤ 1 - G.emptyProbability x :=
        sub_le_sub (hG.sum_sourceRulesOf_le_one h x) (hG.emptyProbability_le x)

omit [DecidableEq W] in
theorem ofReal_prod_map {α : Type} {l : List α} {f : α → ℝ} (h : ∀ a ∈ l, 0 ≤ f a) :
    ENNReal.ofReal (l.map f).prod = (l.map fun a => ENNReal.ofReal (f a)).prod := by
  induction l with
  | nil => exact ENNReal.ofReal_one
  | cons a l ih =>
    rw [List.map_cons, List.prod_cons, ENNReal.ofReal_mul (h a List.mem_cons_self),
      ih fun b hb => h b (List.mem_cons_of_mem _ hb), List.map_cons, List.prod_cons]

/-- **Derivations of bounded height**, together with the empty ones, do not exceed one. -/
theorem IsSubproper.begunMass_le (h : G.IsSubproper) (hG : G.Compiled solver) (n : Nat)
    (x : Category) (tokens : List Payload) :
    G.begunMass n x tokens ≤ ENNReal.ofReal (1 - G.emptyProbability x) := by
  induction n generalizing x tokens with
  | zero =>
    by_cases hx : x ∈ G.names
    · rw [begunMass_zero hG hx]
      exact zero_le
    · rw [hG.emptyProbability_of_not_mem hx, sub_zero, ENNReal.ofReal_one]
      exact begunMass_le_one hG hx tokens
  | succ n ih =>
    by_cases hx : x ∈ G.names
    · rw [begunMass_succ hG hx]
      have hterm : ∀ r ∈ G.usedRules, 0 ≤ (if r.lhs = x then
          r.probability * (r.rhs.map fun y => 1 - G.emptyProbability y).prod else 0) := by
        intro r hr
        split
        · refine mul_nonneg (hG.probability_pos_of_uses (hG.mem_usedRules.mp hr)).le
            (List.prod_nonneg fun w hw => ?_)
          obtain ⟨y, _, rfl⟩ := List.mem_map.mp hw
          exact sub_nonneg.mpr (h.emptyProbability_mem_unit hG y).2
        · exact le_refl 0
      refine le_trans (Finset.sum_le_sum fun r hr => ?_)
        ((ENNReal.ofReal_sum_of_nonneg hterm).symm.trans_le
          (ENNReal.ofReal_le_ofReal (h.sum_usedRules_le hG x)))
      split
      · rw [ENNReal.ofReal_mul (hG.probability_pos_of_uses (hG.mem_usedRules.mp hr)).le,
          ofReal_prod_map fun y _ => sub_nonneg.mpr (h.emptyProbability_mem_unit hG y).2]
        exact mul_le_mul_right (begunMassAll_le ih r.rhs tokens) _
      · exact zero_le
    · rw [hG.emptyProbability_of_not_mem hx, sub_zero, ENNReal.ofReal_one]
      exact begunMass_le_one hG hx tokens

/-- **The derivations of some tokens from a string of symbols do not exceed one.** -/
theorem IsSubproper.massAll_le_one (h : G.IsSubproper) (hG : G.Compiled solver)
    (symbols : List Category) (tokens : List Payload) : G.massAll symbols tokens ≤ 1 := by
  refine massAll_le fun n => (begunMassAll_le (h.begunMass_le hG n) symbols tokens).trans ?_
  refine (List.prod_le_pow_card _ 1 fun w hw => ?_).trans_eq (one_pow _)
  obtain ⟨x, _, rfl⟩ := List.mem_map.mp hw
  exact ENNReal.ofReal_le_one.mpr (sub_le_self 1 (hG.emptyProbability_nonneg x))

end Grammar

/-! ## Charts -/

/-- A score that stands for a probability. -/
def ScoreAlgebra.IsProbability {W : Type} (A : ScoreAlgebra ℝ W) (w : W) : Prop :=
  ∃ p, A.toProbability w = some p ∧ 0 ≤ p ∧ p ≤ 1

namespace Parser

open Grammar

variable {W : Type} [DecidableEq W] {solver : Solver ℝ} {G : Grammar ℝ W} {goal : Category}
  {value : W → ℝ} {tokens : List Payload} {columns : List (Column ℝ W)}

/-- **The inner score of a state is a probability.** -/
theorem Run.inner_mem_unit (hG : G.Compiled solver) (hsolver : solver.IsExact)
    (hvalue : G.algebra.IsAdditive value) (hsub : G.IsSubproper) (h : Run G goal tokens columns)
    {k : Nat} {s : State ℝ W} (hs : s ∈ statesAt columns k) :
    0 ≤ innerAt G value columns k s ∧ innerAt G value columns k s ≤ 1 := by
  have hsat := h.saturated hG
  have hfits := hsat.fits hs
  have hk := h.le_length_of_mem hs
  refine ⟨h.innerAt_nonneg hG hsolver hvalue k hfits.rule, ?_⟩
  rcases hsat.rule_cases hs with hrule | ⟨rfl, _, q, hq, rfl⟩
  · obtain ⟨i, n, position, r⟩ := s
    obtain rfl : position = k := hfits.position
    have hmass := h.inner_eq_mass hG hsolver hvalue hk hfits.origin_le hfits.dot_le hrule
      (hsat.predicted_mem hG hs)
    refine ENNReal.ofReal_le_one.mp (hmass.2.trans_le ?_)
    refine mul_le_one' (ENNReal.ofReal_le_one.mpr ?_) (hsub.massAll_le_one hG _ _)
    rcases hrule with rfl | huses
    · exact hvalue.one.le
    · rw [value_weight_of_uses hG hvalue huses]
      obtain ⟨_, q, hq, rfl⟩ := huses
      exact (hG.isSound hq).proper.2.2
  · unfold innerAt
    rw [h.inner_predicted hG hvalue hs]
    exact (value_weight_of_emptyStart hvalue hq).2

/-- Every cell of a run has an inner score that is a probability. -/
theorem Run.isProbability_inner (hG : G.Compiled solver) (hsolver : solver.IsExact)
    (hvalue : G.algebra.IsAdditive value) (hsub : G.IsSubproper) (h : Run G goal tokens columns)
    (k : Nat) : ∀ c ∈ pastColumn columns k, G.algebra.IsProbability c.inner := by
  intro c hc
  have hunit := h.inner_mem_unit hG hsolver hvalue hsub (mem_states.mpr ⟨c, hc, rfl⟩)
  have hinner : innerAt G value columns k c.state = value c.inner :=
    amount_of_mem (h.pastShaped hG k) hc
  rw [hinner] at hunit
  exact ⟨value c.inner, hvalue.toProbability _, hunit⟩

/-- The sentence probability is the inner score of a final state, or zero. -/
theorem Fed.sentenceProbability?_mem_unit (hG : G.Compiled solver) (hsolver : solver.IsExact)
    (hvalue : G.algebra.IsAdditive value) (hsub : G.IsSubproper) {p : Parser ℝ W}
    (h : Fed G goal tokens p) :
    ∃ total, p.sentenceProbability? = some total ∧ 0 ≤ total ∧ total ≤ 1 := by
  have hholds := h.holds
  refine ⟨_, h.sentenceProbability?_eq_sum hvalue, ?_⟩
  rcases (hholds.run.saturated hG).finalStates_cases hG p.position with hnone | ⟨s, hs⟩
  · rw [hnone]
    exact ⟨le_refl 0, zero_le_one⟩
  · have hmem : s ∈ statesAt p.chart.columns p.position :=
      (mem_finalStates.mp (hs ▸ List.mem_singleton_self s)).1
    rw [hs]
    simp only [List.map_cons, List.map_nil, List.sum_singleton]
    rw [hholds.position] at hmem
    rw [(hholds.chart_scores hG value (List.mem_toFinset.mpr hmem)).2]
    exact hholds.run.inner_mem_unit hG hsolver hvalue hsub hmem

/-- **Inner scores are probabilities**, with exact arithmetic and if the probabilities of the rules
of no category sum up to more than one: those of every state in the chart of some tokens, and in
that of a parser that has been offered any tokens, whose sentence probability is one of them or
zero. -/
theorem inner_scores_are_probabilities {A : ScoreAlgebra ℝ W} (hG : G.Built solver A)
    (hsolver : solver.IsExact) (hvalue : A.IsAdditive value) (hsub : G.IsSubproper) :
    (∀ tokens chart, parse G goal tokens = .ok chart →
      ∀ k, ∀ c ∈ chart.column k, A.IsProbability c.inner) ∧
    ∀ offered p q taken, create G goal = .ok p → p.feed offered = .ok (q, taken) →
      (∀ k, ∀ c ∈ q.chart.column k, A.IsProbability c.inner) ∧
      ∃ total, q.sentenceProbability? = some total ∧ 0 ≤ total ∧ total ≤ 1 := by
  obtain ⟨hC, rfl⟩ := hG.compiled
  refine ⟨fun tokens chart hparse k c hc => ?_, fun offered p q taken hcreate hfeed => ?_⟩
  · obtain ⟨taken, rest, past, rfl, hrun, hcolumns, _⟩ := parse_eq_ok hparse
    have hcol : chart.column k = pastColumn past k := by
      show pastColumn chart.columns k = _
      rw [hcolumns, pastColumn_append_replicate]
    exact hrun.isProbability_inner hC hsolver hvalue hsub k c (hcol ▸ hc)
  · -- refused tokens leave a parser that agrees with the one that was never offered them
    obtain ⟨q', hfed, hagree⟩ := exists_fed_of_feed hcreate hfeed
    refine ⟨fun k c hc => ?_, ?_⟩
    · rw [hagree.column k] at hc
      exact hfed.holds.run.isProbability_inner hC hsolver hvalue hsub k c hc
    · rw [hagree.alike.sentenceProbability]
      exact hfed.sentenceProbability?_mem_unit hC hsolver hvalue hsub

/-- A token that is derived by way of any number of unit rules. -/
theorem loop_inner_scores_are_probabilities :
    ∃ G p, loopGrammar = .ok G ∧ Fed G (.name "S") [.text "a"] p ∧ G.IsSubproper ∧
      (∀ k, ∀ c ∈ p.chart.column k, (linearScores ℝ).IsProbability c.inner) ∧
      ∃ total, p.sentenceProbability? = some total ∧ 0 ≤ total ∧ total ≤ 1 := by
  obtain ⟨G, hG, hrules⟩ := exists_loopGrammar
  obtain ⟨p, hp, _⟩ := exists_fed_loopGrammar hG hrules
  have hbuilt := built_loopGrammar hG
  have hsub : G.IsSubproper := fun x hx => (isProper_of_loopRules hbuilt.compiled.1 hrules x hx).le
  obtain ⟨p₀, hcreate, hfeed⟩ := hp.exists_feed
  have hbounded := (inner_scores_are_probabilities hbuilt isExact_realSolver
    isAdditive_linearScores hsub).2 _ p₀ p _ hcreate hfeed
  exact ⟨G, p, hG, hp, hsub, hbounded⟩

end Parser
end StochasticGrammar
