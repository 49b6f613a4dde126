import StochasticGrammar.Proofs.Collected
import StochasticGrammar.Proofs.Columns

/-!
# Names, rules and productions of a compiled grammar

Which categories a compiled grammar expands, and with which productions: every rule with symbols on
its right side, and its variants with some symbols that can be empty left out.

> `mem_productionsOf`: the productions of a category are the expansions of its rules.

> `eq_of_rule_beq`: productions whose rules are the same are equal, so a chart never confuses two.

> `nodup_expand`: a rule is expanded to each of its productions once.
-/

namespace StochasticGrammar

variable {P W : Type}

/-! ## Rules by category -/

namespace RuleIndex

theorem rulesOf_foldl (rules : List (Rule P W)) (index : RuleIndex P W) (x : Category) :
    rulesOf (rules.foldl (fun index r =>
        Table.insert index r.lhs (((Table.get? index r.lhs).getD []) ++ [r])) index) x
      = rulesOf index x ++ rules.filter fun r => r.lhs == x := by
  induction rules generalizing index with
  | nil => simp
  | cons r rules ih =>
    rw [List.foldl_cons, ih]
    unfold rulesOf
    rw [Table.get?_insert]
    by_cases h : (r.lhs == x) = true
    · rw [if_pos (BEq.symm h), Table.get?_congr index h]
      simp [h]
    · rw [if_neg (fun h' => h (BEq.symm h'))]
      simp [h]

/-- The rules of a category are the rules that expand it, in order. -/
theorem rulesOf_ofRules (rules : List (Rule P W)) (x : Category) :
    (ofRules rules).rulesOf x = rules.filter fun r => r.lhs == x := by
  unfold ofRules
  rw [rulesOf_foldl]
  rfl

/-- The categories of an index: distinct, each of them expanded by a rule, and none missing. -/
structure Names (rules : List (Rule P W)) (names : List Category) : Prop where
  distinct : Star.DistinctNames names
  exists_rule : ∀ x ∈ names, ∃ r ∈ rules, r.lhs = x
  covers : ∀ r ∈ rules, names.any (· == r.lhs) = true

theorem names_foldl (rules : List (Rule P W)) {done : List (Rule P W)} {index : RuleIndex P W}
    (h : Names done index.keys) :
    Names (done ++ rules) (Table.keys (rules.foldl (fun index r =>
      Table.insert index r.lhs (((Table.get? index r.lhs).getD []) ++ [r])) index)) := by
  induction rules generalizing done index with
  | nil => simpa using h
  | cons r rules ih =>
    rw [List.foldl_cons, show done ++ r :: rules = (done ++ [r]) ++ rules by simp]
    refine ih ?_
    rw [Table.keys_insert]
    -- the key of a rule stays where it is, or comes last
    by_cases hr : (Table.keys index).any (· == r.lhs) = true
    · rw [if_pos hr]
      refine ⟨h.distinct, fun x hx => ?_, fun s hs => ?_⟩
      · obtain ⟨s, hs, hsx⟩ := h.exists_rule x hx
        exact ⟨s, List.mem_append_left _ hs, hsx⟩
      · rcases List.mem_append.mp hs with hs | hs
        · exact h.covers s hs
        · rw [List.mem_singleton.mp hs]
          exact hr
    · rw [if_neg hr]
      refine ⟨List.pairwise_append.mpr ⟨h.distinct, List.pairwise_singleton _ _, ?_⟩,
        fun x hx => ?_, fun s hs => ?_⟩
      · intro a ha b hb hab
        rw [List.mem_singleton.mp hb] at hab
        exact hr (List.any_eq_true.mpr ⟨a, ha, hab⟩)
      · rcases List.mem_append.mp hx with hx | hx
        · obtain ⟨s, hs, hsx⟩ := h.exists_rule x hx
          exact ⟨s, List.mem_append_left _ hs, hsx⟩
        · exact ⟨r, List.mem_append_right _ List.mem_cons_self, (List.mem_singleton.mp hx).symm⟩
      · rw [List.any_append, Bool.or_eq_true]
        rcases List.mem_append.mp hs with hs | hs
        · exact Or.inl (h.covers s hs)
        · right
          rw [List.mem_singleton.mp hs]
          simp

theorem names_ofRules (rules : List (Rule P W)) : Names rules (ofRules rules).keys := by
  have hnil : Names ([] : List (Rule P W)) (Table.keys ([] : RuleIndex P W)) :=
    ⟨List.Pairwise.nil, fun x hx => (by cases hx), fun r hr => (by cases hr)⟩
  have h := names_foldl rules hnil
  rw [List.nil_append] at h
  exact h

/-- The rules of an entry of the index. -/
theorem mem_entry_iff {rules : List (Rule P W)} {entry : Category × List (Rule P W)}
    (hentry : entry ∈ ofRules rules) {r : Rule P W} :
    r ∈ entry.2 ↔ r ∈ rules ∧ (r.lhs == entry.1) = true := by
  have hkeys := List.pairwise_map.mp (names_ofRules rules).distinct
  have hrules := rulesOf_ofRules rules entry.1
  rw [rulesOf, Table.get?_of_mem hkeys hentry BEq.rfl, Option.getD_some] at hrules
  rw [hrules, List.mem_filter]

/-- Every rule has its entry. -/
theorem exists_entry {rules : List (Rule P W)} {r : Rule P W} (hr : r ∈ rules) :
    ∃ entry ∈ ofRules rules, (entry.1 == r.lhs) = true ∧ r ∈ entry.2 := by
  obtain ⟨x, hx, hlhs⟩ := List.any_eq_true.mp ((names_ofRules rules).covers r hr)
  obtain ⟨entry, hentry, rfl⟩ := List.mem_map.mp hx
  exact ⟨entry, hentry, hlhs, (mem_entry_iff hentry).mpr ⟨hr, BEq.symm hlhs⟩⟩

end RuleIndex

/-! ## Expansions -/

theorem nodup_choose {α : Type} {xs : List α} (h : xs.Nodup) (k : Nat) : (choose k xs).Nodup := by
  induction xs generalizing k with
  | nil => cases k <;> simp [choose]
  | cons x xs ih =>
    obtain ⟨hx, hxs⟩ := List.nodup_cons.mp h
    cases k with
    | zero => simp [choose]
    | succ k =>
      rw [choose, List.nodup_append']
      refine ⟨(ih hxs k).map (List.cons_injective), ih hxs _, fun ys hys hys' => ?_⟩
      obtain ⟨zs, _, rfl⟩ := List.mem_map.mp hys
      exact hx ((mem_choose.mp hys').1.subset List.mem_cons_self)

namespace Omission

variable [Probability P]

/-- The probability of a variant: that of its source, scaled by what is left out. -/
def scaled (mass : Category → P) (r : Rule P W) (o : List (Category × Nat)) : P :=
  r.probability * Probability.prod (o.map fun place => mass place.1)

/-- The variant of a rule with some places left out, as a production. -/
def production (A : ScoreAlgebra P W) (mass best : Category → P) (r : Rule P W)
    (o : List (Category × Nat)) : Production P W :=
  ⟨.derived ⟨⟨r.kind, r.lhs, remaining r.rhs (o.map (·.2))⟩, scaled mass r o,
      A.ofProbability (scaled mass r o), (o.map (·.2)).map Int.ofNat, 0⟩ r,
    A.ofProbability (r.probability * Probability.prod (o.map fun place => best place.1))⟩

theorem variant_eq_ok {A : ScoreAlgebra P W} {mass best : Category → P} {r : Rule P W}
    {o : List (Category × Nat)} {q : Production P W} :
    variant A best r o (scaled mass r o) = .ok q
      ↔ Probability.IsProper (scaled mass r o) ∧ q = production A mass best r o := by
  unfold variant
  rw [bind_eq_ok]
  unfold Rule.make
  by_cases hp : Probability.IsProper (scaled mass r o)
  · simp only [if_pos hp]
    constructor
    · rintro ⟨_, h₁, h₂⟩
      cases h₁
      cases h₂
      exact ⟨hp, rfl⟩
    · rintro ⟨_, rfl⟩
      exact ⟨_, rfl, rfl⟩
  · simp only [if_neg hp]
    constructor
    · rintro ⟨_, h₁, _⟩
      cases h₁
    · rintro ⟨h, _⟩
      exact absurd h hp

/-- Leaving places out: some of the places whose symbol can be empty, but not the whole side. -/
theorem mem_omissions {nullable rhs : List Category} {o : List (Category × Nat)} :
    o ∈ omissions nullable rhs
      ↔ o.Sublist (candidates nullable rhs) ∧ 1 ≤ o.length ∧ o.length ≠ rhs.length := by
  unfold omissions
  rw [List.mem_filter, List.mem_flatMap]
  constructor
  · rintro ⟨⟨k, hk, ho⟩, hlen⟩
    obtain ⟨hsub, rfl⟩ := mem_choose.mp ho
    exact ⟨hsub, (List.mem_range'_1.mp hk).1, by simpa using hlen⟩
  · rintro ⟨hsub, hpos, hlen⟩
    refine ⟨⟨o.length, List.mem_range'_1.mpr ⟨hpos, ?_⟩, mem_choose.mpr ⟨hsub, rfl⟩⟩,
      by simpa using hlen⟩
    have := hsub.length_le
    omega

/-- A place left out bears the symbol that stands there, and that symbol can be empty. -/
theorem getElem?_of_mem_omission {nullable rhs : List Category} {o : List (Category × Nat)}
    (ho : o ∈ omissions nullable rhs) {place : Category × Nat} (hplace : place ∈ o) :
    rhs[place.2]? = some place.1 ∧ nullable.contains place.1 = true := by
  have hcand := (mem_omissions.mp ho).1.subset hplace
  obtain ⟨hmem, hnull⟩ := List.mem_filter.mp hcand
  exact ⟨List.mem_zipIdx_iff_getElem?.mp hmem, hnull⟩

/-- The places left out settle the whole omission. -/
theorem eq_of_places_eq {nullable rhs : List Category} {o o' : List (Category × Nat)}
    (ho : o ∈ omissions nullable rhs) (ho' : o' ∈ omissions nullable rhs)
    (h : o.map (·.2) = o'.map (·.2)) : o = o' := by
  have hread : ∀ {o}, o ∈ omissions nullable rhs →
      (o.map (·.2)).map (fun i => ((rhs[i]?).getD .start, i)) = o := by
    intro o ho
    rw [List.map_map]
    refine (List.map_congr_left fun place hplace => ?_).trans (List.map_id o)
    show ((rhs[place.2]?).getD .start, place.2) = place
    rw [(getElem?_of_mem_omission ho hplace).1]
    rfl
  rw [← hread ho, ← hread ho', h]

omit [Probability P] in
/-- No omission is listed twice. -/
theorem nodup_omissions (nullable rhs : List Category) :
    (omissions nullable rhs).Nodup := by
  have hplaces : (candidates nullable rhs).Nodup := by
    refine List.Nodup.filter _ (List.Nodup.of_map (·.2) ?_)
    rw [List.zipIdx_map_snd]
    exact List.nodup_range'
  refine List.Nodup.filter _ (List.nodup_flatMap.mpr ⟨fun k _ => nodup_choose hplaces k, ?_⟩)
  have hlengths : (List.range' 1 (candidates nullable rhs).length).Pairwise (· ≠ ·) :=
    List.nodup_range'
  refine hlengths.imp fun {k l} hkl o ho ho' => hkl ?_
  rw [← (mem_choose.mp ho).2, (mem_choose.mp ho').2]

theorem mem_of_mem_remaining {rhs : List Category} {omitted : List Nat} {c : Category}
    (h : c ∈ remaining rhs omitted) : c ∈ rhs := by
  obtain ⟨place, hplace, rfl⟩ := List.mem_map.mp h
  exact List.fst_mem_of_mem_zipIdx (List.mem_filter.mp hplace).1

/-- Something always stays: an omission that left out every place would be as long as the side. -/
theorem remaining_ne_nil {nullable rhs : List Category} {o : List (Category × Nat)}
    (ho : o ∈ omissions nullable rhs) : remaining rhs (o.map (·.2)) ≠ [] := by
  obtain ⟨hsub, _, hlen⟩ := mem_omissions.mp ho
  intro hnil
  have hall : ∀ place ∈ rhs.zipIdx, place.2 ∈ o.map (·.2) := by
    intro place hplace
    have hfilter := List.filter_eq_nil_iff.mp (List.map_eq_nil_iff.mp hnil) place hplace
    simpa using hfilter
  have hrange : List.range rhs.length ⊆ o.map (·.2) := by
    intro i hi
    have hi := List.mem_range.mp hi
    exact hall (rhs[i], i) (List.mem_zipIdx_iff_getElem?.mpr (List.getElem?_eq_getElem hi))
  have hge : rhs.length ≤ o.length := by
    simpa using (List.subperm_of_subset List.nodup_range hrange).length_le
  have hle : o.length ≤ rhs.length := by
    simpa using (hsub.trans List.filter_sublist).length_le
  omega

/-- What a rule is expanded to: itself, and the variants that keep some probability. -/
inductive Expands (A : ScoreAlgebra P W) (nullable : List Category) (mass best : Category → P)
    (r : Rule P W) : Production P W → Prop
  | whole : Expands A nullable mass best r (.ofRule r)
  | variant {o : List (Category × Nat)} (ho : o ∈ omissions nullable r.rhs)
      (hpos : ¬ scaled mass r o ≤ 0) (hp : Probability.IsProper (scaled mass r o)) :
      Expands A nullable mass best r (production A mass best r o)

/-- An empty rule is expanded to nothing, and any other to itself and its variants. -/
theorem expand_eq_ok {A : ScoreAlgebra P W} {nullable : List Category} {mass best : Category → P}
    {r : Rule P W} {qs : List (Production P W)} (h : expand A nullable mass best r = .ok qs) :
    (r.rhs = [] ∧ qs = []) ∨
      (r.rhs ≠ [] ∧ ∃ vs, variants A nullable mass best r = .ok vs ∧ qs = .ofRule r :: vs) := by
  unfold expand at h
  split at h
  · rename_i hempty
    exact .inl ⟨List.isEmpty_iff.mp hempty, (Except.ok.inj h).symm⟩
  · rename_i hne
    obtain ⟨vs, hvs, h⟩ := bind_eq_ok.mp h
    exact .inr ⟨fun hnil => hne (List.isEmpty_iff.mpr hnil), vs, hvs, (Except.ok.inj h).symm⟩

theorem mem_expand {A : ScoreAlgebra P W} {nullable : List Category} {mass best : Category → P}
    {r : Rule P W} {qs : List (Production P W)} (h : expand A nullable mass best r = .ok qs)
    (q : Production P W) : q ∈ qs ↔ r.rhs ≠ [] ∧ Expands A nullable mass best r q := by
  rcases expand_eq_ok h with ⟨hnil, rfl⟩ | ⟨hne, vs, hvs, rfl⟩
  · exact iff_of_false List.not_mem_nil fun hq => hq.1 hnil
  · unfold variants at hvs
    rw [List.mem_cons, and_iff_right hne]
    constructor
    · rintro (rfl | hq)
      · exact .whole
      · obtain ⟨⟨o, p⟩, hentry, hok⟩ := exists_of_mem_mapM hvs hq
        obtain ⟨hmem, hpos⟩ := List.mem_filter.mp hentry
        obtain ⟨o', ho, heq⟩ := List.mem_map.mp hmem
        cases heq
        obtain ⟨hp, rfl⟩ := variant_eq_ok.mp hok
        exact .variant ho (by simpa [scaled] using hpos) hp
    · intro hq
      cases hq with
      | whole => exact Or.inl rfl
      | variant ho hpos hp =>
        right
        obtain ⟨q, hq, hok⟩ := exists_mem_of_mapM hvs
          (List.mem_filter.mpr ⟨List.mem_map_of_mem ho, by simpa [scaled] using hpos⟩)
        rw [(variant_eq_ok.mp hok).2] at hq
        exact hq

/-- The variants of a rule, in order: one for each omission that keeps some probability. -/
theorem eq_of_variants {A : ScoreAlgebra P W} {nullable : List Category} {mass best : Category → P}
    {r : Rule P W} {vs : List (Production P W)} (h : variants A nullable mass best r = .ok vs) :
    vs = ((omissions nullable r.rhs).filter fun o => decide (¬ scaled mass r o ≤ 0)).map
      (production A mass best r) := by
  unfold variants at h
  have hvs := map_eq_of_mapM (g := fun entry => production A mass best r entry.1) (k := id) h
    fun entry hentry v hv => by
      obtain ⟨o, _, rfl⟩ := List.mem_map.mp (List.mem_filter.mp hentry).1
      exact (variant_eq_ok.mp hv).2
  rw [List.map_id, List.filter_map, List.map_map] at hvs
  exact hvs

/-- The productions of all rules are their expansions, empty rules left out. -/
theorem mem_eliminate {A : ScoreAlgebra P W} {nullable : List Category}
    {mass best : Category → P} {rules : List (Rule P W)} {flat : List (Production P W)}
    (h : eliminate A nullable mass best rules = .ok flat) (q : Production P W) :
    q ∈ flat ↔ ∃ r ∈ rules, r.rhs ≠ [] ∧ Expands A nullable mass best r q := by
  unfold eliminate at h
  obtain ⟨qss, hqss, h⟩ := bind_eq_ok.mp h
  cases h
  rw [List.mem_flatten]
  constructor
  · rintro ⟨qs, hqs, hq⟩
    obtain ⟨r, hr, hexpand⟩ := exists_of_mem_mapM hqss hqs
    exact ⟨r, hr, (mem_expand hexpand q).mp hq⟩
  · rintro ⟨r, hr, hq⟩
    obtain ⟨qs, hqs, hexpand⟩ := exists_mem_of_mapM hqss hr
    exact ⟨qs, hqs, (mem_expand hexpand q).mpr hq⟩

end Omission

/-! ## A compiled grammar -/

theorem Rule.head_beq_of_canonical_eq {r r' : Rule P W} (h : r.canonical = r'.canonical) :
    (r.head == r'.head) = true := by
  rw [RuleHead.beq_iff_canonical_eq]
  cases r <;> cases r' <;>
    simp_all [Rule.canonical, Rule.head, Rule.body, RuleBody.canonical]

/-- What is no terminal object is the same as itself only. -/
theorem Category.eq_of_beq {a b : Category} (ha : a.isTerminalObject = false)
    (h : (a == b) = true) : a = b := by
  refine (beq_iff_eq_of_plain (fun t ht => ?_) b).mp h
  rw [ht] at ha
  cases ha

namespace Grammar

variable [DecidableEq P] [DecidableEq W] [Probability P] {solver : Solver P} {G : Grammar P W}

/-- A production of a compiled grammar and the rule that it came from. -/
structure Expansion (G : Grammar P W) (r : Rule P W) (q : Production P W) : Prop where
  mem : r ∈ G.rules
  rhs_ne : r.rhs ≠ []
  expands : Omission.Expands G.algebra G.nullable G.emptyProbability G.bestEmptyProbability r q

/-- A rule that the parser expands categories with. -/
def Uses (G : Grammar P W) (r : Rule P W) : Prop :=
  ∃ x, ∃ q ∈ G.productionsOf x, q.rule = r

omit [DecidableEq P] [DecidableEq W] in
theorem Expansion.lhs {r : Rule P W} {q : Production P W} (h : Expansion G r q) :
    q.rule.lhs = r.lhs := by
  cases h.expands <;> rfl

omit [DecidableEq P] [DecidableEq W] in
theorem Expansion.rule_rhs_ne {r : Rule P W} {q : Production P W} (h : Expansion G r q) :
    q.rule.rhs ≠ [] := by
  cases h.expands with
  | whole => exact h.rhs_ne
  | variant ho => exact Omission.remaining_ne_nil ho

omit [DecidableEq P] [DecidableEq W] in
theorem Expansion.mem_rhs {r : Rule P W} {q : Production P W} (h : Expansion G r q) {c : Category}
    (hc : c ∈ q.rule.rhs) : c ∈ r.rhs := by
  cases h.expands with
  | whole => exact hc
  | variant => exact Omission.mem_of_mem_remaining hc

omit [DecidableEq P] [DecidableEq W] [Probability P] in
/-- Nothing is both matched and expanded. -/
theorem isTerminal_iff {x : Category} (hx : x ≠ .start) :
    G.isTerminal x = true ↔ ¬ G.isNonterminal x = true := by
  unfold isTerminal isNonterminal expands
  cases x.isTerminalObject <;> simp [hx]

namespace Compiled

theorem lhs_plain (h : Compiled solver G) {r : Rule P W} (hr : r ∈ G.rules) :
    r.lhs.isTerminalObject = false :=
  (h.plain r hr).1

theorem lhs_ne_start (h : Compiled solver G) {r : Rule P W} (hr : r ∈ G.rules) :
    r.lhs ≠ .start :=
  (h.plain r hr).2.1

theorem start_not_mem_rhs (h : Compiled solver G) {r : Rule P W} (hr : r ∈ G.rules) :
    .start ∉ r.rhs :=
  (h.plain r hr).2.2

theorem names (h : Compiled solver G) : RuleIndex.Names G.rules G.names := by
  unfold Grammar.names
  rw [h.index]
  exact RuleIndex.names_ofRules G.rules

theorem names_plain (h : Compiled solver G) {x : Category} (hx : x ∈ G.names) :
    x.isTerminalObject = false := by
  obtain ⟨r, hr, rfl⟩ := h.names.exists_rule x hx
  exact h.lhs_plain hr

/-- A category is a name when a rule expands it. -/
theorem contains_names (h : Compiled solver G) {x : Category} :
    G.names.contains x = true ↔ ∃ r ∈ G.rules, r.lhs = x := by
  rw [List.contains_iff_exists_mem_beq]
  constructor
  · rintro ⟨y, hy, hxy⟩
    obtain ⟨r, hr, hrx⟩ := h.names.exists_rule y hy
    exact ⟨r, hr, by rw [hrx, Category.eq_of_beq (h.names_plain hy) (BEq.symm hxy)]⟩
  · rintro ⟨r, hr, rfl⟩
    obtain ⟨y, hy, hyr⟩ := List.any_eq_true.mp (h.names.covers r hr)
    exact ⟨y, hy, BEq.symm hyr⟩

theorem mem_names (h : Compiled solver G) {x : Category} :
    x ∈ G.names ↔ ∃ r ∈ G.rules, r.lhs = x := by
  constructor
  · exact h.names.exists_rule x
  · rintro ⟨r, hr, rfl⟩
    obtain ⟨y, hy, hyr⟩ := List.any_eq_true.mp (h.names.covers r hr)
    rw [← Category.eq_of_beq (h.names_plain hy) hyr]
    exact hy

/-- The categories that the parser expands are those that have rules. -/
theorem isNonterminal_iff (h : Compiled solver G) {x : Category} :
    G.isNonterminal x = true ↔ x ∈ G.names := by
  unfold isNonterminal expands
  rw [Bool.and_eq_true, h.contains_names, h.mem_names]
  constructor
  · exact fun hx => hx.2
  · rintro ⟨r, hr, rfl⟩
    exact ⟨by simpa using h.lhs_plain hr, r, hr, rfl⟩

theorem ne_start_of_mem_names (h : Compiled solver G) {x : Category} (hx : x ∈ G.names) :
    x ≠ .start := by
  obtain ⟨r, hr, rfl⟩ := h.mem_names.mp hx
  exact h.lhs_ne_start hr

/-- Names are expanded, and all other symbols are matched. -/
theorem not_isTerminal_of_mem (h : Compiled solver G) {x : Category} (hx : x ∈ G.names) :
    ¬ G.isTerminal x = true :=
  fun hterm => (isTerminal_iff (h.ne_start_of_mem_names hx)).mp hterm (h.isNonterminal_iff.mpr hx)

theorem isTerminal_of_not_mem (h : Compiled solver G) {x : Category} (hstart : x ≠ .start)
    (hx : x ∉ G.names) : G.isTerminal x = true :=
  (isTerminal_iff hstart).mpr fun hnt => hx (h.isNonterminal_iff.mp hnt)

theorem sourceRulesOf (h : Compiled solver G) {x : Category} {r : Rule P W} :
    r ∈ G.sourceRulesOf x ↔ r ∈ G.rules ∧ r.lhs = x := by
  unfold Grammar.sourceRulesOf
  rw [h.index, RuleIndex.rulesOf_ofRules, List.mem_filter]
  constructor
  · rintro ⟨hr, hrx⟩
    exact ⟨hr, Category.eq_of_beq (h.lhs_plain hr) hrx⟩
  · rintro ⟨hr, rfl⟩
    exact ⟨hr, BEq.rfl⟩

/-- **The productions of a category** are the expansions of its rules. -/
theorem mem_productionsOf (h : Compiled solver G) {x : Category} {q : Production P W} :
    q ∈ G.productionsOf x ↔ q.rule.lhs = x ∧ ∃ r, Expansion G r q := by
  obtain ⟨flat, hflat, hprod⟩ := h.productions
  have hexp : ∀ q, q ∈ flat ↔ ∃ r, Expansion G r q := by
    intro q
    rw [Omission.mem_eliminate hflat]
    constructor
    · rintro ⟨r, hr, hne, hex⟩
      exact ⟨r, hr, hne, hex⟩
    · rintro ⟨r, hr, hne, hex⟩
      exact ⟨r, hr, hne, hex⟩
  have hplain : ∀ q ∈ flat, q.rule.lhs.isTerminalObject = false ∧ q.rule.lhs ∈ G.names := by
    intro q hq
    obtain ⟨r, hr⟩ := (hexp q).mp hq
    rw [hr.lhs, h.mem_names]
    exact ⟨h.lhs_plain hr.mem, r, hr.mem, rfl⟩
  unfold productionsOf
  rw [hprod, ← hexp]
  have hkeys : (indexProductions G.names flat).Pairwise fun a b => ¬ (a.1 == b.1) = true :=
    List.pairwise_map.mpr h.names.distinct
  constructor
  · intro hq
    cases hget : Table.get? (indexProductions G.names flat) x with
    | none =>
      rw [hget] at hq
      cases hq
    | some qs =>
      rw [hget] at hq
      obtain ⟨k, hk, hxk⟩ := Table.mem_of_get? hget
      obtain ⟨y, _, heq⟩ := List.mem_map.mp hk
      cases heq
      obtain ⟨hqflat, hqk⟩ := List.mem_filter.mp hq
      -- look-ups go by `==`, which tells the left sides of rules apart
      exact ⟨Category.eq_of_beq (hplain q hqflat).1 (BEq.trans hqk (BEq.symm hxk)), hqflat⟩
  · rintro ⟨rfl, hq⟩
    rw [Table.get?_of_mem hkeys (List.mem_map_of_mem (hplain q hq).2) BEq.rfl]
    exact List.mem_filter.mpr ⟨hq, BEq.rfl⟩

/-- A variant that keeps some probability is one of the productions: it would have been refused if
its probability were improper. -/
theorem expansion_variant (h : Compiled solver G) {r : Rule P W} (hr : r ∈ G.rules)
    {o : List (Category × Nat)} (ho : o ∈ Omission.omissions G.nullable r.rhs)
    (hpos : ¬ Omission.scaled G.emptyProbability r o ≤ 0) :
    Expansion G r
      (Omission.production G.algebra G.emptyProbability G.bestEmptyProbability r o) := by
  obtain ⟨flat, hflat, _⟩ := h.productions
  obtain ⟨qss, hqss, _⟩ := bind_eq_ok.mp hflat
  obtain ⟨qs, _, hexpand⟩ := exists_mem_of_mapM hqss hr
  have hne : r.rhs ≠ [] := by
    intro hnil
    obtain ⟨hsub, hlen, _⟩ := Omission.mem_omissions.mp ho
    rw [hnil] at hsub
    rw [List.sublist_nil.mp hsub] at hlen
    cases hlen
  obtain ⟨vs, hvs, _⟩ := ((Omission.expand_eq_ok hexpand).resolve_left fun hnil => hne hnil.1).2
  obtain ⟨q, _, hok⟩ := exists_mem_of_mapM hvs
    (List.mem_filter.mpr ⟨List.mem_map_of_mem ho, decide_eq_true hpos⟩)
  exact ⟨hr, hne, .variant ho hpos (Omission.variant_eq_ok.mp hok).1⟩

/-- Rules that say the same are equal. -/
theorem eq_of_head_beq (h : Compiled solver G) {r r' : Rule P W} (hr : r ∈ G.rules)
    (hr' : r' ∈ G.rules) (hhead : (r.head == r'.head) = true) : r = r' := by
  have hsymm : Std.Symm fun a b : Rule P W => ¬ (a.head == b.head) = true :=
    ⟨fun a b hab hba => hab (BEq.symm hba)⟩
  by_contra hne
  exact h.distinct.forall hr hr' hne hhead

/-- **Productions whose rules are the same are equal.** A variant remembers its source and the
places left out, and no two sources say the same. -/
theorem eq_of_rule_beq (h : Compiled solver G) {r r' : Rule P W} {q q' : Production P W}
    (hq : Expansion G r q) (hq' : Expansion G r' q') (hrule : (q.rule == q'.rule) = true) :
    q = q' := by
  have hmem := hq.mem
  have hmem' := hq'.mem
  rw [Rule.beq_iff_canonical_eq] at hrule
  obtain ⟨head, p, _, hr⟩ := h.given r hmem
  obtain ⟨head', p', _, hr'⟩ := h.given r' hmem'
  cases hq.expands with
  | whole =>
    cases hq'.expands with
    | whole =>
      rw [h.eq_of_head_beq hmem hmem' (Rule.head_beq_of_canonical_eq hrule)]
    | variant =>
      rw [show (Production.ofRule r).rule = r from rfl, hr] at hrule
      cases hrule
  | variant ho =>
    cases hq'.expands with
    | whole =>
      rw [show (Production.ofRule r').rule = r' from rfl, hr'] at hrule
      cases hrule
    | variant ho' =>
      simp only [Omission.production, Rule.canonical, Rule.derived.injEq] at hrule
      obtain ⟨hbody, hsource⟩ := hrule
      have hrr := h.eq_of_head_beq hmem hmem' (Rule.head_beq_of_canonical_eq hsource)
      subst hrr
      have homitted := congrArg RuleBody.omitted hbody
      rw [Omission.eq_of_places_eq ho ho' ?_]
      exact (List.map_inj_right fun _ _ hij => Int.ofNat.inj hij).mp homitted

/-- A production tells which rule it came from. -/
theorem source_eq (h : Compiled solver G) {r r' : Rule P W} {q q' : Production P W}
    (hq : Expansion G r q) (hq' : Expansion G r' q') (hrule : q.rule = q'.rule) : r = r' := by
  obtain ⟨head, p, _, hr⟩ := h.given r hq.mem
  obtain ⟨head', p', _, hr'⟩ := h.given r' hq'.mem
  cases hq.expands with
  | whole =>
    cases hq'.expands with
    | whole => exact hrule
    | variant =>
      rw [show (Production.ofRule r).rule = r from rfl, hr] at hrule
      cases hrule
  | variant =>
    cases hq'.expands with
    | whole =>
      rw [show (Production.ofRule r').rule = r' from rfl, hr'] at hrule
      cases hrule
    | variant =>
      simp only [Omission.production, Rule.derived.injEq] at hrule
      exact hrule.2

/-- A rule is expanded to each of its productions once. -/
theorem nodup_expand (h : Compiled solver G) {r : Rule P W} (hr : r ∈ G.rules)
    {qs : List (Production P W)} (hqs : Omission.expand G.algebra G.nullable G.emptyProbability
      G.bestEmptyProbability r = .ok qs) : (qs.map (·.rule)).Nodup := by
  obtain ⟨head, p, _, hgiven⟩ := h.given r hr
  rcases Omission.expand_eq_ok hqs with ⟨_, rfl⟩ | ⟨_, vs, hvs, rfl⟩
  · exact List.nodup_nil
  · -- the rule itself is no variant, and variants differ in what they leave out
    rw [List.map_cons, List.nodup_cons, Omission.eq_of_variants hvs, List.map_map]
    constructor
    · intro hmem
      obtain ⟨o, _, heq⟩ := List.mem_map.mp hmem
      rw [show (Production.ofRule r).rule = r from rfl, hgiven] at heq
      cases heq
    · refine List.Nodup.map_on ?_ (List.Nodup.filter _ (Omission.nodup_omissions _ _))
      intro o ho o' ho' heq
      have homitted := congrArg Rule.omitted heq
      have hplaces := (List.map_inj_right fun _ _ hij => Int.ofNat.inj hij).mp homitted
      exact Omission.eq_of_places_eq (List.mem_filter.mp ho).1 (List.mem_filter.mp ho').1 hplaces

/-- What the parser may rely on for every production. -/
structure IsSound (G : Grammar P W) (x : Category) (q : Production P W) : Prop where
  lhs : q.rule.lhs = x
  lhs_ne_start : x ≠ .start
  nonterminal : G.isNonterminal x = true
  rhs_ne : q.rule.rhs ≠ []
  start_not_mem : .start ∉ q.rule.rhs
  proper : Probability.IsProper q.rule.probability
  weight : q.rule.weight = G.algebra.ofProbability q.rule.probability

theorem isSound (h : Compiled solver G) {x : Category} {q : Production P W}
    (hq : q ∈ G.productionsOf x) : IsSound G x q := by
  obtain ⟨rfl, r, hr⟩ := h.mem_productionsOf.mp hq
  obtain ⟨head, p, hp, heq⟩ := h.given r hr.mem
  refine ⟨rfl, ?_, ?_, hr.rule_rhs_ne, fun hstart => h.start_not_mem_rhs hr.mem (hr.mem_rhs hstart),
    ?_, ?_⟩
  · rw [hr.lhs]
    exact h.lhs_ne_start hr.mem
  · rw [h.isNonterminal_iff, h.mem_names, hr.lhs]
    exact ⟨r, hr.mem, rfl⟩
  · cases hr.expands with
    | whole =>
      rw [heq]
      exact hp
    | variant _ _ hp => exact hp
  · cases hr.expands with
    | whole =>
      rw [heq]
      rfl
    | variant => rfl

/-- The parser uses rules of names only. -/
theorem mem_names_of_uses (h : Compiled solver G) {r : Rule P W} (hr : G.Uses r) :
    r.lhs ∈ G.names := by
  obtain ⟨x, q, hq, rfl⟩ := hr
  rw [(h.isSound hq).lhs]
  exact h.isNonterminal_iff.mp (h.isSound hq).nonterminal

/-- The rules that the parser uses are told apart. -/
theorem discrete_uses (h : Compiled solver G) : Discrete G.Uses := by
  rintro _ _ ⟨x, q, hq, rfl⟩ ⟨y, q', hq', rfl⟩ hrule
  obtain ⟨_, r, hr⟩ := h.mem_productionsOf.mp hq
  obtain ⟨_, r', hr'⟩ := h.mem_productionsOf.mp hq'
  rw [h.eq_of_rule_beq hr hr' hrule]

end Compiled
end Grammar
end StochasticGrammar
