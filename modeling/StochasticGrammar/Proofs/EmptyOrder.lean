import StochasticGrammar.Proofs.ChainOrder
import StochasticGrammar.Proofs.TranslatedGrammar

/-!
# Leaving out empty symbols, whatever the order of rules

The order of rules settles in which order categories are listed, rounds go through them and sums are
taken. What can be empty is a least set all the same, and how probably is a sum in each round, so
that the rounds end together.

> `contains_nullable_perm`, `exists_masses_of_perm`: which categories can be empty, and how
> probably.

> `exists_eliminate_of_perm`: what rules are expanded to.
-/

namespace StochasticGrammar

/-! ## Tables and lists -/

/-- A table under distinct keys is looked up in any order. -/
theorem Table.get?_perm {κ ν : Type} [BEq κ] [EquivBEq κ] {t t' : Table κ ν} (h : t.Perm t')
    (hkeys : t.Pairwise fun a b => ¬ (a.1 == b.1) = true) (k : κ) : get? t' k = get? t k := by
  have hkeys' : t'.Pairwise fun a b => ¬ (a.1 == b.1) = true :=
    h.pairwise hkeys fun {a b} hab hba => hab (BEq.symm hba)
  cases hget : get? t k with
  | none =>
    rw [get?_eq_none_iff] at hget ⊢
    exact fun e he => hget e (h.mem_iff.mpr he)
  | some v =>
    obtain ⟨k', hmem, hk⟩ := mem_of_get? hget
    exact get?_of_mem hkeys' (h.mem_iff.mp hmem) hk

/-- What can be computed for every member can be computed in any order. -/
theorem exists_mapM_of_perm {ε α β : Type} {f : α → Except ε β} {l l' : List α} (hl : l.Perm l')
    {r : List β} (h : l.mapM f = .ok r) : ∃ r', l'.mapM f = .ok r' ∧ r.Perm r' := by
  obtain ⟨r', hall, hr⟩ := List.perm_comp_forall₂ hl.symm (mapM_eq_ok_iff.mp h)
  exact ⟨r', mapM_eq_ok_iff.mpr hall, hr.symm⟩

/-! ## Rules by category -/

section Index

variable {P W : Type} {rules rules' : List (Rule P W)}

namespace RuleIndex

/-- A category is expanded by the same rules, in another order. -/
theorem rulesOf_perm (h : rules.Perm rules') (x : Category) :
    ((ofRules rules).rulesOf x).Perm ((ofRules rules').rulesOf x) := by
  rw [rulesOf_ofRules, rulesOf_ofRules]
  exact h.filter _

/-- Rules that expand no terminal object list the same categories in every order. -/
theorem keys_perm (h : rules.Perm rules') (hplain : ∀ r ∈ rules, r.lhs.isTerminalObject = false) :
    (ofRules rules).keys.Perm (ofRules rules').keys := by
  have hmem : ∀ {rs : List (Rule P W)}, (∀ r ∈ rs, r.lhs.isTerminalObject = false) → ∀ x,
      x ∈ (ofRules rs).keys ↔ ∃ r ∈ rs, r.lhs = x := by
    intro rs hrs x
    refine ⟨(names_ofRules rs).exists_rule x, ?_⟩
    rintro ⟨r, hr, rfl⟩
    obtain ⟨y, hy, hlhs⟩ := List.any_eq_true.mp ((names_ofRules rs).covers r hr)
    rwa [Category.eq_of_beq (hrs r hr) (BEq.symm hlhs)]
  refine (List.perm_ext_iff_of_nodup (names_ofRules rules).distinct.nodup
    (names_ofRules rules').distinct.nodup).mpr fun x => ?_
  rw [hmem hplain, hmem fun r hr => hplain r (h.mem_iff.mpr hr)]
  simp only [h.mem_iff]

end RuleIndex

/-! ## What can be empty -/

namespace Empty

/-- Which categories can be empty does not depend on the order of the rules. -/
theorem contains_nullable_perm (h : rules.Perm rules') (x : Category) :
    (nullable (RuleIndex.ofRules rules')).contains x
      = (nullable (RuleIndex.ofRules rules)).contains x := by
  have hle : ∀ {rs rs' : List (Rule P W)}, rs.Perm rs' →
      (nullable (RuleIndex.ofRules rs)).contains x = true →
      (nullable (RuleIndex.ofRules rs')).contains x = true := by
    intro rs rs' hrs
    exact nullable_induction (S := fun c => (nullable (RuleIndex.ofRules rs')).contains c = true)
      contains_of_beq (fun r hr hrhs => contains_nullable_lhs (hrs.mem_iff.mp hr) hrhs) x
  rw [Bool.eq_iff_iff]
  exact ⟨hle h.symm, hle h⟩

theorem isCovered_congr {known known' : List Category}
    (h : ∀ x, known'.contains x = known.contains x) (r : Rule P W) :
    isCovered known' r = isCovered known r :=
  congrArg (fun f => r.rhs.all f) (funext h)

end Empty

end Index

/-! ## How probably -/

section Masses

variable {K W : Type} [Field K] [LinearOrder K] {rules rules' : List (Rule K W)}

/-- Nothing in a list exceeds a bound. -/
theorem Probability.greatest_le_iff {bound : K} (hbound : 0 ≤ bound) {ps : List K} :
    Probability.greatest ps ≤ bound ↔ ∀ p ∈ ps, p ≤ bound := by
  have hfold : ∀ (ps : List K) (p : K),
      ps.foldl (fun best q => if best < q then q else best) p ≤ bound
      ↔ p ≤ bound ∧ ∀ q ∈ ps, q ≤ bound := by
    intro ps
    induction ps with
    | nil => simp
    | cons q ps ih =>
      intro p
      rw [List.foldl_cons, ih, List.forall_mem_cons, ← and_assoc]
      refine and_congr_left fun _ => ?_
      split
      · rename_i hlt
        exact ⟨fun h => ⟨hlt.le.trans h, h⟩, And.right⟩
      · rename_i hle
        exact ⟨fun h => ⟨h, (not_lt.mp hle).trans h⟩, And.left⟩
  cases ps with
  | nil => simpa [Probability.greatest] using hbound
  | cons p ps =>
    rw [List.forall_mem_cons]
    exact hfold ps p

namespace Empty

/-- Masses are looked up in any order. -/
theorem massAt_perm {e e' : Masses K} (h : e.Perm e')
    (hkeys : e.Pairwise fun a b => ¬ (a.1 == b.1) = true) : massAt e' = massAt e :=
  funext fun x => congrArg (·.getD 0) (Table.get?_perm h hkeys x)

/-- What a round gives a category: the sum over its rules that can vanish. -/
def vanishing (index : RuleIndex K W) (known : List Category) (before : Category → K)
    (x : Category) : K :=
  Probability.sum (((index.rulesOf x).filter (isCovered known)).map fun r =>
    r.probability * Probability.prod (r.rhs.map before))

/-- A round computes every entry anew. -/
theorem massRound_eq (index : RuleIndex K W) (known : List Category) (e : Masses K) :
    massRound index known e
      = e.map fun entry => (entry.1, vanishing index known (massAt e) entry.1) :=
  rfl

/-- A round changes little if it changes every entry little. -/
theorem change_massRound_le_iff {index : RuleIndex K W} {known : List Category} {e : Masses K}
    {bound : K} (hbound : 0 ≤ bound) :
    change e (massRound index known e) ≤ bound
      ↔ ∀ entry ∈ e,
          Probability.dist (vanishing index known (massAt e) entry.1) entry.2 ≤ bound := by
  unfold change
  rw [massRound_eq, List.zipWith_map_right, List.zipWith_self, Probability.greatest_le_iff hbound,
    List.forall_mem_map]

variable (hrules : rules.Perm rules') {known known' : List Category}
  (hknown : ∀ x, known'.contains x = known.contains x)
include hrules hknown

/-- A round gives every category the same in every order. -/
theorem vanishing_perm (before : Category → K) (x : Category) :
    vanishing (RuleIndex.ofRules rules') known' before x
      = vanishing (RuleIndex.ofRules rules) known before x := by
  unfold vanishing
  rw [Probability.sum_eq, Probability.sum_eq, funext (isCovered_congr hknown)]
  exact (((RuleIndex.rulesOf_perm hrules x).symm.filter _).map _).sum_eq

/-- **Reordered masses settle in the same round.** -/
theorem settleMasses_perm [IsStrictOrderedRing K] (n : Nat) {e e' : Masses K} (h : e.Perm e')
    (hkeys : e.Pairwise fun a b => ¬ (a.1 == b.1) = true) {found : Masses K}
    (hfound : settleMasses (massRound (RuleIndex.ofRules rules) known) n e = some found) :
    ∃ found', settleMasses (massRound (RuleIndex.ofRules rules') known') n e' = some found' ∧
      found.Perm found' ∧ found.Pairwise fun a b => ¬ (a.1 == b.1) = true := by
  induction n generalizing e e' with
  | zero => cases hfound
  | succ n ih =>
    have hround : (massRound (RuleIndex.ofRules rules) known e).Perm
        (massRound (RuleIndex.ofRules rules') known' e') := by
      simp only [massRound_eq, massAt_perm h hkeys, vanishing_perm hrules hknown]
      exact h.map _
    have hkeys' : (massRound (RuleIndex.ofRules rules) known e).Pairwise
        fun a b => ¬ (a.1 == b.1) = true := List.pairwise_map.mpr hkeys
    -- both orders settle in the same round
    have hchange : change e' (massRound (RuleIndex.ofRules rules') known' e') ≤ 1e-12
        ↔ change e (massRound (RuleIndex.ofRules rules) known e) ≤ 1e-12 := by
      have hbound : (0 : K) ≤ 1e-12 := by norm_num
      rw [change_massRound_le_iff hbound, change_massRound_le_iff hbound]
      simp only [massAt_perm h hkeys, vanishing_perm hrules hknown, h.mem_iff]
    unfold settleMasses at hfound ⊢
    dsimp only at hfound ⊢
    by_cases hsettled : change e (massRound (RuleIndex.ofRules rules) known e) ≤ 1e-12
    · rw [if_pos hsettled] at hfound
      rw [if_pos (hchange.mpr hsettled)]
      cases hfound
      exact ⟨_, rfl, hround, hkeys'⟩
    · rw [if_neg hsettled] at hfound
      rw [if_neg (mt hchange.mp hsettled)]
      exact ih hround hkeys' hfound

omit hknown in
/-- **Rules in another order leave every category as much to be empty**, or are refused as they
were. -/
theorem exists_masses_of_perm [IsStrictOrderedRing K]
    (hplain : ∀ r ∈ rules, r.lhs.isTerminalObject = false) {e : Masses K}
    (he : masses (RuleIndex.ofRules rules) (nullable (RuleIndex.ofRules rules)) = .ok e) :
    ∃ e', masses (RuleIndex.ofRules rules') (nullable (RuleIndex.ofRules rules')) = .ok e' ∧
      massAt e' = massAt e := by
  have hknown := contains_nullable_perm hrules
  have hzero : (zeroMasses (RuleIndex.ofRules rules) (nullable (RuleIndex.ofRules rules))).Perm
      (zeroMasses (P := K) (RuleIndex.ofRules rules') (nullable (RuleIndex.ofRules rules'))) := by
    unfold zeroMasses
    rw [funext hknown]
    exact ((RuleIndex.keys_perm hrules hplain).filter _).map _
  have hkeys : (zeroMasses (P := K) (RuleIndex.ofRules rules)
      (nullable (RuleIndex.ofRules rules))).Pairwise fun a b => ¬ (a.1 == b.1) = true :=
    List.pairwise_map.mpr ((RuleIndex.names_ofRules rules).distinct.filter _)
  unfold masses at he ⊢
  cases hsettle :
      settleMasses (massRound (RuleIndex.ofRules rules) (nullable (RuleIndex.ofRules rules)))
      maxRounds (zeroMasses (RuleIndex.ofRules rules) (nullable (RuleIndex.ofRules rules))) with
  | none =>
    rw [hsettle] at he
    cases he
  | some found =>
    obtain ⟨found', hfound', hperm, hdistinct⟩ :=
      settleMasses_perm hrules hknown _ hzero hkeys hsettle
    rw [hsettle] at he
    rw [hfound']
    dsimp only at he ⊢
    split at he
    · cases he
    · rename_i hnone
      cases he
      have hnone' : found'.find? (fun entry => decide (1 + 1e-9 < entry.2)) = none := by
        rw [List.find?_eq_none] at hnone ⊢
        exact fun entry hentry => hnone entry (hperm.mem_iff.mpr hentry)
      rw [hnone']
      exact ⟨found', rfl, massAt_perm hperm hdistinct⟩

end Empty

end Masses

/-! ## Variants -/

namespace Omission

variable {P W : Type} [Probability P] {A : ScoreAlgebra P W} {known known' : List Category}

omit [Probability P] in
theorem omissions_congr (h : ∀ x, known'.contains x = known.contains x) (rhs : List Category) :
    omissions known' rhs = omissions known rhs := by
  unfold omissions candidates
  rw [funext h]

/-- The rules that a rule is expanded to do not depend on what the best derivations are. -/
theorem map_rule_expand (h : ∀ x, known'.contains x = known.contains x)
    (mass best best' : Category → P) (r : Rule P W) :
    (expand A known' mass best' r).map (List.map (·.rule))
      = (expand A known mass best r).map (List.map (·.rule)) := by
  have hvariants : (variants A known' mass best' r).map (List.map (·.rule))
      = (variants A known mass best r).map (List.map (·.rule)) := by
    unfold variants
    rw [map_mapM, map_mapM, omissions_congr h]
    refine congrArg (fun f => List.mapM f _) (funext fun entry => ?_)
    unfold variant
    dsimp only
    cases Rule.make _ (some r) <;> rfl
  unfold expand
  split
  · rfl
  · cases hvs : variants A known mass best r with
    | error e =>
      rw [hvs] at hvariants
      cases hvs' : variants A known' mass best' r with
      | error e' =>
        rw [hvs'] at hvariants
        exact hvariants
      | ok vs' =>
        rw [hvs'] at hvariants
        cases hvariants
    | ok vs =>
      rw [hvs] at hvariants
      cases hvs' : variants A known' mass best' r with
      | error e' =>
        rw [hvs'] at hvariants
        cases hvariants
      | ok vs' =>
        rw [hvs'] at hvariants
        exact congrArg (fun rules => Except.ok (r :: rules)) (Except.ok.inj hvariants)

/-- **Rules in another order have the same variants.** -/
theorem exists_eliminate_of_perm (h : ∀ x, known'.contains x = known.contains x)
    {mass best : Category → P} (best' : Category → P) {rules rules' : List (Rule P W)}
    (hrules : rules.Perm rules') {flat : List (Production P W)}
    (hflat : eliminate A known mass best rules = .ok flat) :
    ∃ flat', eliminate A known' mass best' rules' = .ok flat' ∧
      (flat.map (·.rule)).Perm (flat'.map (·.rule)) := by
  obtain ⟨qss, hqss, hflat⟩ := bind_eq_ok.mp hflat
  cases hflat
  have hmap := map_mapM (expand A known mass best) (List.map (·.rule)) rules
  rw [hqss] at hmap
  obtain ⟨rss, hrss, hperm⟩ := exists_mapM_of_perm hrules hmap.symm
  rw [← funext (map_rule_expand h mass best best'), ← map_mapM] at hrss
  cases hqss' : rules'.mapM (expand A known' mass best') with
  | error e =>
    rw [hqss'] at hrss
    cases hrss
  | ok qss' =>
    rw [hqss'] at hrss
    cases hrss
    refine ⟨qss'.flatten, bind_eq_ok.mpr ⟨qss', hqss', rfl⟩, ?_⟩
    rw [List.map_flatten, List.map_flatten]
    exact hperm.flatten

end Omission

end StochasticGrammar
