import StochasticGrammar.Proofs.EmptyOrder

/-!
# Compiling rules in another order

Rules that a builder takes in one order it takes in every order, and a grammar that is compiled from
them answers alike what a parser asks for: chains are summed between names, wherever these stand in
the list, and the best empty derivation of a category is the best one, whichever was tried first.

> `exists_compile_of_perm`: what a builder makes of rules it makes of them in every order.

> `Reordered.mem_productionsOf`, `Reordered.leftCornerScore_eq`: what both grammars have in common.
-/

namespace StochasticGrammar

/-! ## Chains -/

namespace Grammar

variable {P W : Type} {names names' : List Category}

/-- The productions by name, strung together again. -/
theorem flatMap_indexProductions (names : List Category) (flat : List (Production P W)) :
    (indexProductions names flat).flatMap (fun entry => entry.2.map (·.rule))
      = names.flatMap fun x => (flat.map (·.rule)).filter fun r => r.lhs == x := by
  unfold indexProductions
  rw [List.flatMap_map]
  simp only [List.filter_map]
  rfl

/-- Reordered names and rules string together the same productions. -/
theorem compiled_perm (hnames : names.Perm names')
    {flat flat' : List (Production P W)} (hflat : (flat.map (·.rule)).Perm (flat'.map (·.rule))) :
    ((indexProductions names flat).flatMap fun entry => entry.2.map (·.rule)).Perm
      ((indexProductions names' flat').flatMap fun entry => entry.2.map (·.rule)) := by
  rw [flatMap_indexProductions, flatMap_indexProductions]
  exact hnames.flatMap fun x _ => hflat.filter _

/-- Which symbols are categories does not depend on the order of their names. -/
theorem expands_perm (hnames : names.Perm names') (c : Category) :
    expands names' c = expands names c := by
  have hcontains : names'.contains c = names.contains c := by
    rw [Bool.eq_iff_iff, List.contains_iff_exists_mem_beq, List.contains_iff_exists_mem_beq]
    simp only [hnames.mem_iff]
  rw [expands, expands, hcontains]

/-- Reordered rules have the same left corners. -/
theorem leftEdges_perm (hnames : names.Perm names') {rules rules' : List (Rule P W)}
    (hrules : rules.Perm rules') : (leftEdges names rules).Perm (leftEdges names' rules') := by
  unfold leftEdges
  rw [funext (expands_perm hnames)]
  exact hrules.filterMap _

/-- Reordered rules have the same unit rules. -/
theorem unitEdges_perm (hnames : names.Perm names') {rules rules' : List (Rule P W)}
    (hrules : rules.Perm rules') : (unitEdges names rules).Perm (unitEdges names' rules') := by
  unfold unitEdges
  rw [funext (expands_perm hnames)]
  exact hrules.filterMap _

/-- What is looked up in an encoded table of chains. -/
theorem get?_encode (A : ScoreAlgebra P W) (rows : Table Category (Table Category P))
    (x y : Category) :
    Table.get? ((Table.get? (encode A rows) x).getD []) y
      = (Table.get? ((Table.get? rows x).getD []) y).map A.ofProbability := by
  rw [encode, Table.get?_map_values]
  cases Table.get? rows x with
  | none => rfl
  | some row => exact Table.get?_map_values A.ofProbability row y

end Grammar

/-! ## Collecting -/

namespace Builder

section Entries

variable {K : Type} [Field K] [LinearOrder K] {entries entries' : List (RuleEntry K)}

/-- A rule is merged with the same entry wherever that stands. -/
theorem addEntry_perm (h : entries.Perm entries')
    (hdistinct : entries.Pairwise fun a b => ¬ (a.head == b.head) = true) (e : RuleEntry K) :
    (addEntry entries e).Perm (addEntry entries' e) := by
  induction h with
  | nil => exact .refl _
  | cons x h ih =>
    unfold addEntry
    split
    · exact h.cons _
    · exact (ih (List.pairwise_cons.mp hdistinct).2).cons x
  | swap x y l =>
    have hyx : ¬ (y.head == x.head) = true :=
      (List.pairwise_cons.mp hdistinct).1 x List.mem_cons_self
    by_cases hx : (x.head == e.head) = true
    · have hy : ¬ (y.head == e.head) = true := fun hy => hyx (BEq.trans hy (BEq.symm hx))
      simp only [addEntry, if_pos hx, if_neg hy]
      exact .swap _ _ _
    · by_cases hy : (y.head == e.head) = true
      · simp only [addEntry, if_neg hx, if_pos hy]
        exact .swap _ _ _
      · simp only [addEntry, if_neg hx, if_neg hy]
        exact .swap _ _ _
  | trans h₁ _ ih₁ ih₂ =>
    exact (ih₁ hdistinct).trans
      (ih₂ (h₁.pairwise hdistinct fun {a b} hab hba => hab (BEq.symm hba)))

/-- Two entries may be added in either order. -/
theorem addEntry_comm {a b : RuleEntry K} (hab : (a.head == b.head) = true → a.head = b.head)
    (entries : List (RuleEntry K)) :
    (addEntry (addEntry entries a) b).Perm (addEntry (addEntry entries b) a) := by
  induction entries with
  | nil =>
    by_cases hhead : (a.head == b.head) = true
    · simp only [addEntry, if_pos hhead, if_pos (BEq.symm hhead)]
      rw [hab hhead, add_comm a.probability]
    · have hhead' : ¬ (b.head == a.head) = true := fun h => hhead (BEq.symm h)
      simp only [addEntry, if_neg hhead, if_neg hhead']
      exact .swap _ _ _
  | cons x xs ih =>
    by_cases ha : (x.head == a.head) = true <;> by_cases hb : (x.head == b.head) = true
    · simp only [addEntry, if_pos ha, if_pos hb, add_right_comm]
      exact .refl _
    · simp only [addEntry, if_pos ha, if_neg hb]
      exact .refl _
    · simp only [addEntry, if_neg ha, if_pos hb]
      exact .refl _
    · simp only [addEntry, if_neg ha, if_neg hb]
      exact ih.cons x

/-- The sums that entries are divided by do not depend on their order. -/
theorem normalized_perm (h : entries.Perm entries') :
    (normalized entries).Perm (normalized entries') := by
  have htotal : totalOf entries' = totalOf entries := by
    funext lhs
    unfold totalOf
    rw [Probability.sum_eq, Probability.sum_eq]
    exact ((h.symm.filter _).map _).sum_eq
  unfold normalized
  rw [htotal]
  exact h.map _

end Entries

variable {K W : Type} [Field K] [LinearOrder K]

/-- Builders that hold the same entries. -/
structure Shuffled (b b' : Builder K W) : Prop where
  algebra : b'.algebra = b.algebra
  normalize : b'.normalize = b.normalize
  entries : b.entries.Perm b'.entries
  tidy : Tidy b.entries

/-- A rule goes into either builder or into none. -/
theorem Shuffled.add {b b' c : Builder K W} (h : Shuffled b b') {head : RuleHead} {p : K}
    (hadd : b.add head p = .ok c) : ∃ c', b'.add head p = .ok c' ∧ Shuffled c c' := by
  obtain ⟨hchecked, rfl⟩ := add_eq_ok_iff.mp hadd
  exact ⟨_, add_eq_ok_iff.mpr ⟨hchecked, rfl⟩, h.algebra, h.normalize,
    addEntry_perm h.entries h.tidy.distinct _, tidy_addEntry h.tidy hchecked.2⟩

/-- The same rules go into either builder. -/
theorem Shuffled.addRules {b b' c : Builder K W} (h : Shuffled b b') {rules : List (RuleHead × K)}
    (hadd : b.addRules rules = .ok c) : ∃ c', b'.addRules rules = .ok c' ∧ Shuffled c c' := by
  induction rules generalizing b b' with
  | nil =>
    cases hadd
    exact ⟨b', rfl, h⟩
  | cons r rules ih =>
    obtain ⟨d, hd, hadd⟩ := bind_eq_ok.mp hadd
    obtain ⟨d', hd', hshuffled⟩ := h.add hd
    obtain ⟨c', hc', hc⟩ := ih hshuffled hadd
    exact ⟨c', bind_eq_ok.mpr ⟨d', hd', hc'⟩, hc⟩

/-- **Rules are collected in any order.** -/
theorem Shuffled.exists_addRules_of_perm {b b' c : Builder K W} (h : Shuffled b b')
    {rules rules' : List (RuleHead × K)} (hperm : rules.Perm rules')
    (hspelled : ∀ r ∈ rules, ∀ r' ∈ rules, r.1.IsPlain → (r.1 == r'.1) = true → r.1 = r'.1)
    (hadd : b.addRules rules = .ok c) : ∃ c', b'.addRules rules' = .ok c' ∧ Shuffled c c' := by
  induction hperm generalizing b b' c with
  | nil => exact h.addRules hadd
  | cons r hperm ih =>
    obtain ⟨d, hd, hadd⟩ := bind_eq_ok.mp hadd
    obtain ⟨d', hd', hshuffled⟩ := h.add hd
    obtain ⟨c', hc', hc⟩ := ih hshuffled
      (fun r hr r' hr' => hspelled r (.tail _ hr) r' (.tail _ hr')) hadd
    exact ⟨c', bind_eq_ok.mpr ⟨d', hd', hc'⟩, hc⟩
  | swap x y rest =>
    obtain ⟨d, hd, hadd⟩ := bind_eq_ok.mp hadd
    obtain ⟨e, he, hadd⟩ := bind_eq_ok.mp hadd
    obtain ⟨hy, rfl⟩ := add_eq_ok_iff.mp hd
    obtain ⟨hx, rfl⟩ := add_eq_ok_iff.mp he
    -- what a builder takes does not depend on what it has taken, so the other order is taken as
    -- well
    have hcomm := addEntry_comm (a := ⟨y.1, y.2⟩) (b := ⟨x.1, x.2⟩)
      (hspelled y List.mem_cons_self x (.tail _ List.mem_cons_self) hy.2) b.entries
    have htidy := tidy_addEntry h.tidy (e := ⟨x.1, x.2⟩) hx.2
    have hperm := hcomm.trans (addEntry_perm (addEntry_perm h.entries h.tidy.distinct ⟨x.1, x.2⟩)
      htidy.distinct ⟨y.1, y.2⟩)
    have hshuffled : Shuffled
        { b with entries := addEntry (addEntry b.entries ⟨y.1, y.2⟩) ⟨x.1, x.2⟩ }
        { b' with entries := addEntry (addEntry b'.entries ⟨x.1, x.2⟩) ⟨y.1, y.2⟩ } :=
      ⟨h.algebra, h.normalize, hperm, tidy_addEntry (tidy_addEntry h.tidy hy.2) hx.2⟩
    obtain ⟨c', hc', hc⟩ := hshuffled.addRules hadd
    exact ⟨c', bind_eq_ok.mpr ⟨_, add_eq_ok_iff.mpr ⟨hx, rfl⟩,
      bind_eq_ok.mpr ⟨_, add_eq_ok_iff.mpr ⟨hy, rfl⟩, hc'⟩⟩, hc⟩
  | trans h₁ _ ih₁ ih₂ =>
    obtain ⟨d, hd, hshuffled⟩ := ih₁ ⟨rfl, rfl, .refl _, h.tidy⟩ hspelled hadd
    obtain ⟨c', hc', hc⟩ := ih₂ h (fun r hr r' hr' =>
      hspelled r (h₁.mem_iff.mpr hr) r' (h₁.mem_iff.mpr hr')) hd
    exact ⟨c', hc', hc.algebra.trans hshuffled.algebra, hc.normalize.trans hshuffled.normalize,
      hshuffled.entries.trans hc.entries, hshuffled.tidy⟩

/-- The rules that a builder builds from. -/
theorem Shuffled.exists_rules {b b' : Builder K W} (h : Shuffled b b') {rules : List (Rule K W)}
    (hrules : (if b.normalize then normalized b.entries else b.entries).mapM (fun e =>
        (Rule.create b.algebra e.head e.probability).mapError GrammarError.improperRule)
      = .ok rules) :
    ∃ rules', (if b'.normalize then normalized b'.entries else b'.entries).mapM (fun e =>
        (Rule.create b'.algebra e.head e.probability).mapError GrammarError.improperRule)
      = .ok rules' ∧
      rules.Perm rules' := by
  rw [h.normalize, h.algebra]
  refine exists_mapM_of_perm ?_ hrules
  split
  · exact normalized_perm h.entries
  · exact h.entries

end Builder

/-! ## Compiling -/

namespace Grammar

variable {W : Type} [DecidableEq W] {A : ScoreAlgebra ℝ W} {solver : Solver ℝ}
  {rules rules' : List (Rule ℝ W)}

/-- The chains come to the rules and the masses that are given. -/
theorem withChains_eq_some {masses : Empty.Masses ℝ} {flat : List (Production ℝ W)}
    {G : Grammar ℝ W} (h : withChains solver A rules masses flat = some G) :
    G.rules = rules ∧ G.masses = masses := by
  unfold withChains at h
  dsimp only at h
  obtain ⟨_, _, h⟩ := Option.bind_eq_some_iff.mp h
  obtain ⟨_, _, rfl⟩ := Option.map_eq_some_iff.mp h
  exact ⟨rfl, rfl⟩

/-- The chains through the variants of rules sum up to the same in every order. -/
theorem exists_withChains_of_perm (hsolver : solver.IsExact) (hrules : rules.Perm rules')
    (hplain : ∀ r ∈ rules, r.lhs.isTerminalObject = false) {masses : Empty.Masses ℝ}
    (masses' : Empty.Masses ℝ) {flat flat' : List (Production ℝ W)}
    (hflat : (flat.map (·.rule)).Perm (flat'.map (·.rule)))
    (hpos : ∀ q ∈ flat, 0 < q.rule.probability) {G : Grammar ℝ W}
    (h : withChains solver A rules masses flat = some G) :
    ∃ G', withChains solver A rules' masses' flat' = some G' ∧
      ∀ x ∈ G.names, ∀ y ∈ G.names, G'.leftCornerScore x y = G.leftCornerScore x y := by
  have hnames := RuleIndex.keys_perm hrules hplain
  have hcompiled := compiled_perm hnames hflat
  have hcompiled_pos : ∀ r ∈ (indexProductions (RuleIndex.ofRules rules).keys flat).flatMap
      (fun entry => entry.2.map (·.rule)), 0 < r.probability := by
    intro r hr
    rw [flatMap_indexProductions] at hr
    obtain ⟨x, _, hr⟩ := List.mem_flatMap.mp hr
    obtain ⟨q, hq, rfl⟩ := List.mem_map.mp (List.mem_filter.mp hr).1
    exact hpos q hq
  have hplain_names : ∀ x ∈ (RuleIndex.ofRules rules).keys, ∀ b, (x == b) = true → x = b := by
    intro x hx b hxb
    obtain ⟨r, hr, rfl⟩ := (RuleIndex.names_ofRules rules).exists_rule x hx
    exact Category.eq_of_beq (hplain r hr) hxb
  have hdistinct := (RuleIndex.names_ofRules rules).distinct
  unfold withChains at h
  dsimp only at h
  obtain ⟨left, hleft, h⟩ := Option.bind_eq_some_iff.mp h
  obtain ⟨unit, hunit, rfl⟩ := Option.map_eq_some_iff.mp h
  obtain ⟨left', hleft', hget⟩ := Star.exists_closure_of_perm hsolver hnames hdistinct hplain_names
    (leftEdges_perm hnames hcompiled) (leftEdges_pos _ hcompiled_pos)
    (toOption_eq_some.mp hleft)
  obtain ⟨unit', hunit', _⟩ := Star.exists_closure_of_perm hsolver hnames hdistinct hplain_names
    (unitEdges_perm hnames hcompiled) (unitEdges_pos _ hcompiled_pos)
    (toOption_eq_some.mp hunit)
  obtain ⟨G', hG', hcorners⟩ : ∃ G', withChains solver A rules' masses' flat' = some G' ∧
      G'.algebra = A ∧ G'.leftCorners = encode A left' := by
    unfold withChains
    dsimp only
    rw [hleft', hunit']
    exact ⟨_, rfl, rfl, rfl⟩
  refine ⟨G', hG', fun x hx y hy => ?_⟩
  simp only [leftCornerScore, leftCornersOf, hcorners.1, hcorners.2]
  rw [get?_encode, get?_encode, hget x hx y hy]

/-- **Rules compile in every order.** -/
theorem exists_ofRules_of_perm (hsolver : solver.IsExact) (hrules : rules.Perm rules')
    (hproper : ∀ r ∈ rules, Probability.IsProper r.probability)
    (hplain : ∀ r ∈ rules, r.lhs.isTerminalObject = false)
    (hdistinct : rules.Pairwise fun a b => ¬ (a.head == b.head) = true) {G : Grammar ℝ W}
    (h : ofRules solver A rules = .ok G) :
    ∃ G', ofRules solver A rules' = .ok G' ∧ G.rules.Perm G'.rules ∧
      (∀ x, G'.emptyProbability x = G.emptyProbability x) ∧
      ∀ x ∈ G.names, ∀ y ∈ G.names, G'.leftCornerScore x y = G.leftCornerScore x y := by
  have hdistinct' : rules'.Pairwise fun a b => ¬ (a.head == b.head) = true :=
    hrules.pairwise hdistinct fun {a b} hab hba => hab (BEq.symm hba)
  have hG := toOption_eq_some.mpr h
  rw [toOption_ofRules_of_distinct hdistinct] at hG
  obtain ⟨masses, hmasses, hG⟩ := Option.bind_eq_some_iff.mp hG
  obtain ⟨flat, hflat, hG⟩ := Option.bind_eq_some_iff.mp hG
  rw [toOption_eq_some] at hmasses hflat
  obtain ⟨masses', hmasses', hmass⟩ := Empty.exists_masses_of_perm hrules hplain hmasses
  -- which rule makes a category empty best may depend on the order; so only the rules of the
  -- productions are the same, not their best scores
  obtain ⟨flat', hflat', hperm⟩ := Omission.exists_eliminate_of_perm
    (Empty.contains_nullable_perm hrules) (Empty.bestAt (Empty.choices (RuleIndex.ofRules rules')))
    hrules hflat
  have hpos : ∀ q ∈ flat, 0 < q.rule.probability := by
    intro q hq
    obtain ⟨r, hr, _, hexpands⟩ := (Omission.mem_eliminate hflat q).mp hq
    cases hexpands with
    | whole => exact (hproper r hr).2.1
    | variant _ _ hp => exact hp.2.1
  obtain ⟨G', hG', hchains⟩ :=
    exists_withChains_of_perm hsolver hrules hplain masses' hperm hpos hG
  obtain ⟨hgiven, hmassesG⟩ := withChains_eq_some hG
  obtain ⟨hgiven', hmassesG'⟩ := withChains_eq_some hG'
  refine ⟨G', ?_, hgiven.symm ▸ hgiven'.symm ▸ hrules, fun x => ?_, hchains⟩
  · rw [← toOption_eq_some, toOption_ofRules_of_distinct hdistinct', hmasses']
    change ((Omission.eliminate A _ (Empty.massAt masses') _ rules').toOption.bind _) = _
    rw [hmass, hflat']
    exact hG'
  · rw [emptyProbability, emptyProbability, hmassesG', hmassesG, hmass]

/-- Compiled grammars whose rules are the same in another order. -/
structure Reordered (solver : Solver ℝ) (G G' : Grammar ℝ W) : Prop where
  compiled : G.Compiled solver
  compiled' : G'.Compiled solver
  algebra : G'.algebra = G.algebra
  rules : G.rules.Perm G'.rules
  emptyProbability : ∀ x, G'.emptyProbability x = G.emptyProbability x
  corners : ∀ x ∈ G.names, ∀ y ∈ G.names, G'.leftCornerScore x y = G.leftCornerScore x y

/-- **What a builder makes of rules it makes of them in every order.** -/
theorem exists_compile_of_perm (hsolver : solver.IsExact) (normalize : Bool)
    {heads heads' : List (RuleHead × ℝ)} (hperm : heads.Perm heads')
    (hspelled : ∀ r ∈ heads, ∀ r' ∈ heads, r.1.IsPlain → (r.1 == r'.1) = true → r.1 = r'.1)
    {G : Grammar ℝ W}
    (h : Builder.compile solver A normalize heads = .ok G) :
    ∃ G', Builder.compile solver A normalize heads' = .ok G' ∧ Reordered solver G G' := by
  obtain ⟨b, hb, hbuild⟩ := bind_eq_ok.mp h
  have hempty : Builder.Shuffled (Builder.empty (P := ℝ) A normalize) (Builder.empty A normalize) :=
    ⟨rfl, rfl, .refl _, fun e he => absurd he List.not_mem_nil, .nil⟩
  obtain ⟨b', hb', hshuffled⟩ := hempty.exists_addRules_of_perm hperm hspelled hb
  unfold Builder.build at hbuild
  obtain ⟨rules, hrules, hbuild⟩ := bind_eq_ok.mp hbuild
  obtain ⟨rules', hrules', hperm'⟩ := hshuffled.exists_rules hrules
  obtain ⟨hgiven, hplain, hdistinct⟩ := tidy_rules (Builder.tidy_ready hshuffled.tidy _) hrules
  have hproper : ∀ r ∈ rules, Probability.IsProper r.probability := by
    intro r hr
    obtain ⟨head, p, hp, rfl⟩ := hgiven r hr
    exact hp
  obtain ⟨G', hG', hgiven', hempty', hcorners⟩ := exists_ofRules_of_perm hsolver hperm' hproper
    (fun r hr => (hplain r hr).1) hdistinct hbuild
  have h' : Builder.compile solver A normalize heads' = .ok G' :=
    bind_eq_ok.mpr ⟨b', hb', bind_eq_ok.mpr ⟨rules', hrules', hshuffled.algebra.symm ▸ hG'⟩⟩
  obtain ⟨hcompiled, halgebra⟩ := (built_of_compile h).compiled
  obtain ⟨hcompiled', halgebra'⟩ := (built_of_compile h').compiled
  exact ⟨G', h', hcompiled, hcompiled', halgebra'.trans halgebra.symm, hgiven', hempty', hcorners⟩

/-! ## What a parser asks for -/

namespace Reordered

variable {G G' : Grammar ℝ W}

theorem mem_names (h : Reordered solver G G') {x : Category} : x ∈ G'.names ↔ x ∈ G.names := by
  rw [h.compiled.mem_names, h.compiled'.mem_names]
  simp only [h.rules.mem_iff]

/-- Either grammar is a reordering of the other. -/
theorem symm (h : Reordered solver G G') : Reordered solver G' G where
  compiled := h.compiled'
  compiled' := h.compiled
  algebra := h.algebra.symm
  rules := h.rules.symm
  emptyProbability x := (h.emptyProbability x).symm
  corners x hx y hy := (h.corners x (h.mem_names.mp hx) y (h.mem_names.mp hy)).symm

/-- The same symbols are categories. -/
theorem isNonterminal_eq (h : Reordered solver G G') (x : Category) :
    G'.isNonterminal x = G.isNonterminal x := by
  rw [Bool.eq_iff_iff, h.compiled.isNonterminal_iff, h.compiled'.isNonterminal_iff, h.mem_names]

theorem isTerminal_eq (h : Reordered solver G G') (x : Category) :
    G'.isTerminal x = G.isTerminal x := by
  have hcontains : G'.names.contains x = G.names.contains x := by
    rw [Bool.eq_iff_iff, h.compiled.contains_names, h.compiled'.contains_names]
    simp only [h.rules.mem_iff]
  rw [isTerminal, isTerminal, hcontains]

/-- The same categories can be empty. -/
theorem isNullable_eq (h : Reordered solver G G') (x : Category) :
    G'.isNullable x = G.isNullable x := by
  rw [isNullable, isNullable, h.compiled.nullable, h.compiled'.nullable, h.compiled.index,
    h.compiled'.index]
  exact Empty.contains_nullable_perm h.rules x

/-- A derivation by the rules of one grammar is one by the rules of the other. -/
theorem isSourceParse (h : Reordered solver G G') {d : Derivation ℝ W} (hd : d.IsSourceParse G) :
    d.IsSourceParse G' := by
  induction hd with
  | leaf hterm haccepts => exact .leaf (by rwa [h.isTerminal_eq]) haccepts
  | node hr hroots _ ih => exact .node (h.rules.mem_iff.mp hr) hroots ih

/-- A best empty derivation derives nothing over the reordered rules too, so the best probability
there is not smaller. -/
theorem bestEmptyProbability_le (h : Reordered solver G G') (x : Category) :
    G.bestEmptyProbability x ≤ G'.bestEmptyProbability x := by
  cases hget : Table.get? G.choices x with
  | none =>
    have hzero : G.bestEmptyProbability x = 0 := by
      rw [bestEmptyProbability, Empty.bestAt, hget]
      rfl
    rw [hzero]
    exact h.compiled'.bestEmptyProbability_nonneg x
  | some choice =>
    -- what is chosen in one grammar is a derivation in the other, and nothing is better than a
    -- choice
    obtain ⟨tree, d, rfl, hunfolds, -⟩ := Parser.exists_emptyTree h.compiled.chosen
      h.compiled.names.covers (Empty.chance_eq_some_iff.mpr ⟨choice.2, hget⟩)
    obtain ⟨hd, rfl⟩ := hunfolds.isEmptyBest h.compiled
    rw [Derivation.category_toTree, ← Parser.weight_of_isEmptyBest h.compiled hd]
    exact (Parser.weight_le_of_empty h.compiled' (h.isSourceParse (hd.isSourceParse h.compiled))
      hd.tokens_eq).2

/-- Categories are empty with the same best probability, though maybe by different derivations. -/
theorem bestEmptyProbability_eq (h : Reordered solver G G') (x : Category) :
    G'.bestEmptyProbability x = G.bestEmptyProbability x :=
  le_antisymm (h.symm.bestEmptyProbability_le x) (h.bestEmptyProbability_le x)

/-- A rule is expanded to the same productions. -/
theorem expansion (h : Reordered solver G G') {r : Rule ℝ W} {q : Production ℝ W}
    (hq : Expansion G r q) : Expansion G' r q := by
  refine ⟨h.rules.mem_iff.mp hq.mem, hq.rhs_ne, ?_⟩
  have hexpands := hq.expands
  rw [← funext h.emptyProbability, ← funext h.bestEmptyProbability_eq, ← h.algebra] at hexpands
  cases hexpands with
  | whole => exact .whole
  | variant ho hpos hp =>
    refine .variant ?_ hpos hp
    rwa [Omission.omissions_congr h.isNullable_eq]

/-- **Both grammars have the same productions.** -/
theorem mem_productionsOf (h : Reordered solver G G') {x : Category} {q : Production ℝ W} :
    q ∈ G'.productionsOf x ↔ q ∈ G.productionsOf x := by
  rw [h.compiled.mem_productionsOf, h.compiled'.mem_productionsOf]
  exact and_congr_right fun _ => exists_congr fun r => ⟨h.symm.expansion, h.expansion⟩

theorem uses_iff (h : Reordered solver G G') {r : Rule ℝ W} : G'.Uses r ↔ G.Uses r := by
  unfold Uses
  simp only [h.mem_productionsOf]

/-- Left corners are reached with the same score. -/
theorem leftCornerScore_eq (h : Reordered solver G G') (x y : Category) :
    G'.leftCornerScore x y = G.leftCornerScore x y := by
  by_cases hxy : x ∈ G.names ∧ y ∈ G.names
  · exact h.corners x hxy.1 y hxy.2
  · have hnot : x ∉ G.names ∨ y ∉ G.names := by
      rwa [not_and_or] at hxy
    have hnot' : x ∉ G'.names ∨ y ∉ G'.names := by
      rwa [h.mem_names, h.mem_names]
    rw [h.compiled.leftCornerScore_of_not_mem hnot, h.compiled'.leftCornerScore_of_not_mem hnot',
      h.algebra]

end Reordered

end Grammar

end StochasticGrammar
