import StochasticGrammar.Grammar.Builder
import StochasticGrammar.Proofs.Outcome
import StochasticGrammar.Proofs.Star

/-!
# From a builder to a compiled grammar

A builder refuses what a parser could not handle, so a grammar that it builds is well-formed: no
rule expands a terminal object or mentions the start symbol, every probability is proper, and no two
rules say the same. `Compiled` collects this together with how every part of the grammar came about;
all later facts about grammars are drawn from it.

> `Built.compiled`: a grammar that a builder built is compiled.
-/

namespace StochasticGrammar

variable {P W : Type}

/-! ## Builders -/

section Builder

variable [Probability P]

/-- A builder as it comes about: rules are added to an empty one, one after the other, and in
between it may be told to normalise or not. -/
inductive Builder.Collected (A : ScoreAlgebra P W) : Builder P W → Prop
  | empty (normalize : Bool) : Collected A (Builder.empty A normalize)
  | add {b b' : Builder P W} {head : RuleHead} {p : P} (hb : Collected A b)
      (hadd : b.add head p = .ok b') : Collected A b'
  | setNormalize {b : Builder P W} (hb : Collected A b) (flag : Bool) :
      Collected A { b with normalize := flag }

/-- Takes rules one by one; the first refused one ends it. -/
def Builder.addRules (b : Builder P W) (rules : List (RuleHead × P)) :
    Except (GrammarError P) (Builder P W) :=
  rules.foldlM (fun b r => b.add r.1 r.2) b

/-- What a builder makes of a list of rules. -/
def Builder.compile [DecidableEq P] [DecidableEq W] (solver : Solver P) (A : ScoreAlgebra P W)
    (normalize : Bool) (rules : List (RuleHead × P)) : Except (GrammarError P) (Grammar P W) := do
  (← (Builder.empty A normalize).addRules rules).build solver

/-- A head that a builder lets through. -/
def RuleHead.IsPlain (h : RuleHead) : Prop :=
  h.lhs.isTerminalObject = false ∧ h.lhs ≠ .start ∧ .start ∉ h.rhs

/-- What all entries of a builder have in common. -/
structure Builder.Tidy (entries : List (RuleEntry P)) : Prop where
  plain : ∀ e ∈ entries, e.head.IsPlain
  distinct : entries.Pairwise fun a b => ¬ (a.head == b.head) = true

namespace Builder

theorem heads_addEntry (entries : List (RuleEntry P)) (e : RuleEntry P) :
    (addEntry entries e).map (·.head)
      = if (entries.map (·.head)).any (· == e.head) then entries.map (·.head)
        else entries.map (·.head) ++ [e.head] := by
  induction entries with
  | nil => simp [addEntry]
  | cons x xs ih =>
    by_cases hx : (x.head == e.head) = true
    · simp [addEntry, hx]
    · simp only [addEntry, if_neg hx, List.map_cons, List.any_cons, ih]
      by_cases hany : (xs.map (·.head)).any (· == e.head) = true <;> simp [hx, hany]

omit [Probability P] in
/-- Tidiness is about the heads alone. -/
theorem tidy_iff {entries : List (RuleEntry P)} :
    Tidy entries ↔ (∀ h ∈ entries.map (·.head), h.IsPlain) ∧
      (entries.map (·.head)).Pairwise fun a b => ¬ (a == b) = true := by
  constructor
  · rintro ⟨hplain, hdistinct⟩
    refine ⟨fun h hh => ?_, List.pairwise_map.mpr hdistinct⟩
    obtain ⟨e, he, rfl⟩ := List.mem_map.mp hh
    exact hplain e he
  · rintro ⟨hplain, hdistinct⟩
    exact ⟨fun e he => hplain _ (List.mem_map_of_mem he), List.pairwise_map.mp hdistinct⟩

/-- Adding an entry keeps the entries tidy. -/
theorem tidy_addEntry {entries : List (RuleEntry P)} (h : Tidy entries) {e : RuleEntry P}
    (he : e.head.IsPlain) : Tidy (addEntry entries e) := by
  obtain ⟨hplain, hdistinct⟩ := tidy_iff.mp h
  rw [tidy_iff, heads_addEntry]
  by_cases hany : (entries.map (·.head)).any (· == e.head) = true
  · rw [if_pos hany]
    exact ⟨hplain, hdistinct⟩
  · rw [if_neg hany]
    constructor
    · intro h hh
      rcases List.mem_append.mp hh with hh | hh
      · exact hplain h hh
      · rw [List.mem_singleton.mp hh]
        exact he
    · refine List.pairwise_append.mpr ⟨hdistinct, List.pairwise_singleton _ _, ?_⟩
      intro a ha b hb hab
      rw [List.mem_singleton.mp hb] at hab
      exact hany (List.any_eq_true.mpr ⟨a, ha, hab⟩)

theorem tidy_normalized {entries : List (RuleEntry P)} (h : Tidy entries) :
    Tidy (normalized entries) := by
  rw [tidy_iff] at h ⊢
  have hheads : (normalized entries).map (·.head) = entries.map (·.head) := by
    simp [normalized]
  rw [hheads]
  exact h

/-- The entries that a builder builds from are tidy. -/
theorem tidy_ready {entries : List (RuleEntry P)} (h : Tidy entries) (normalize : Bool) :
    Tidy (if normalize then normalized entries else entries) := by
  split
  · exact tidy_normalized h
  · exact h

/-- **What a builder takes, it has checked**, and that does not depend on what it has taken. -/
theorem add_eq_ok_iff {b b' : Builder P W} {head : RuleHead} {p : P} :
    b.add head p = .ok b' ↔ (Probability.IsProper p ∧ head.IsPlain) ∧
      b' = { b with entries := addEntry b.entries ⟨head, p⟩ } := by
  have hstart : head.rhs.contains .start = true ↔ .start ∈ head.rhs := by
    rw [List.contains_iff_exists_mem_beq]
    constructor
    · intro h
      obtain ⟨c, hc, heq⟩ := h
      exact (Category.beq_iff_eq_of_plain (by simp) c).mp heq ▸ hc
    · exact fun hmem => ⟨_, hmem, BEq.rfl⟩
  unfold add
  constructor
  · intro h
    split at h
    · cases h
    · next hp =>
      split at h
      · cases h
      · next hsymbols =>
        split at h
        · cases h
        · next hterm =>
          cases h
          rw [not_or, hstart] at hsymbols
          exact ⟨⟨not_not.mp hp, Bool.eq_false_iff.mpr hterm, hsymbols⟩, rfl⟩
  · intro h
    obtain ⟨⟨hp, hterm, hsymbols⟩, rfl⟩ := h
    rw [← hstart, ← not_or] at hsymbols
    rw [if_neg (not_not.mpr hp), if_neg hsymbols, if_neg (Bool.eq_false_iff.mp hterm)]

/-- Every builder keeps its entries tidy, and its algebra. -/
theorem Collected.tidy {A : ScoreAlgebra P W} {b : Builder P W} (h : Collected A b) :
    Tidy b.entries ∧ b.algebra = A := by
  induction h with
  | empty normalize => exact ⟨⟨fun e he => (by cases he), List.Pairwise.nil⟩, rfl⟩
  | add hb hadd ih =>
    obtain ⟨⟨_, hplain⟩, rfl⟩ := add_eq_ok_iff.mp hadd
    exact ⟨tidy_addEntry ih.1 hplain, ih.2⟩
  | setNormalize hb flag ih => exact ih

/-- What no entry says is put at the end. -/
theorem addEntry_of_new {entries : List (RuleEntry P)} {e : RuleEntry P}
    (h : ∀ x ∈ entries, ¬ (x.head == e.head) = true) : addEntry entries e = entries ++ [e] := by
  induction entries with
  | nil => rfl
  | cons x xs ih =>
    obtain ⟨hx, h⟩ := List.forall_mem_cons.mp h
    rw [addEntry, if_neg hx, ih h, List.cons_append]

/-- Rules that all say something different are taken one after the other. -/
theorem addRules_of_distinct (b : Builder P W) {rules : List (RuleHead × P)}
    (hchecked : ∀ r ∈ rules, Probability.IsProper r.2 ∧ r.1.IsPlain)
    (hdistinct : rules.Pairwise fun a b => ¬ (a.1 == b.1) = true)
    (hnew : ∀ r ∈ rules, ∀ e ∈ b.entries, ¬ (e.head == r.1) = true) :
    b.addRules rules
      = .ok { b with entries := b.entries ++ rules.map fun r => ⟨r.1, r.2⟩ } := by
  induction rules generalizing b with
  | nil =>
    rw [List.map_nil, List.append_nil]
    rfl
  | cons r rules ih =>
    obtain ⟨hr, hchecked⟩ := List.forall_mem_cons.mp hchecked
    obtain ⟨hhead, hdistinct⟩ := List.pairwise_cons.mp hdistinct
    obtain ⟨hrnew, hnew⟩ := List.forall_mem_cons.mp hnew
    refine bind_eq_ok.mpr ⟨_, add_eq_ok_iff.mpr ⟨hr, rfl⟩, ?_⟩
    rw [addEntry_of_new hrnew, List.map_cons, List.append_cons b.entries _ (rules.map _)]
    refine ih _ hchecked hdistinct fun r' hr' e he => ?_
    rcases List.mem_append.mp he with he | he
    · exact hnew r' hr' e he
    · rw [List.mem_singleton.mp he]
      exact hhead r' hr'

theorem Collected.addRules {A : ScoreAlgebra P W} {b b' : Builder P W} (h : Collected A b)
    {rules : List (RuleHead × P)} (hrules : b.addRules rules = .ok b') : Collected A b' := by
  induction rules generalizing b with
  | nil =>
    cases hrules
    exact h
  | cons r rules ih =>
    obtain ⟨next, hnext, hrules⟩ := bind_eq_ok.mp hrules
    exact ih (h.add hnext) hrules

end Builder

end Builder

/-! ## Merging -/

namespace Grammar

/-- A rule that says something new gets a group of its own. -/
theorem addToGroups_of_new {groups : List (List (Rule P W))} {r : Rule P W}
    (h : ∀ g ∈ groups, ∀ x ∈ g, ¬ (x.head == r.head) = true) :
    addToGroups groups r = groups ++ [[r]] := by
  induction groups with
  | nil => rfl
  | cons g gs ih =>
    have hg : ¬ g.head?.any (·.head == r.head) = true := by
      cases g with
      | nil => simp
      | cons x xs => simpa using h _ List.mem_cons_self x List.mem_cons_self
    rw [addToGroups, if_neg hg, ih fun g' hg' => h g' (List.mem_cons_of_mem _ hg')]
    rfl

theorem foldl_addToGroups {rules : List (Rule P W)} {groups : List (List (Rule P W))}
    (hrules : rules.Pairwise fun a b => ¬ (a.head == b.head) = true)
    (hgroups : ∀ g ∈ groups, ∀ x ∈ g, ∀ r ∈ rules, ¬ (x.head == r.head) = true) :
    rules.foldl addToGroups groups = groups ++ rules.map fun r => [r] := by
  induction rules generalizing groups with
  | nil => simp
  | cons r rules ih =>
    obtain ⟨hr, hrules⟩ := List.pairwise_cons.mp hrules
    rw [List.foldl_cons,
      addToGroups_of_new fun g hg x hx => hgroups g hg x hx r List.mem_cons_self, ih hrules]
    · simp
    · intro g hg x hx s hs
      rcases List.mem_append.mp hg with hg | hg
      · exact hgroups g hg x hx s (List.mem_cons_of_mem _ hs)
      · rw [List.mem_singleton.mp hg, List.mem_singleton] at hx
        rw [hx]
        exact hr s hs

variable [Probability P]

/-- Rules that all say something different are merged into themselves. -/
theorem merge_of_distinct (A : ScoreAlgebra P W) {rules : List (Rule P W)}
    (h : rules.Pairwise fun a b => ¬ (a.head == b.head) = true) :
    merge A rules = .ok rules := by
  have hgroups : rules.foldl addToGroups [] = rules.map fun r => [r] :=
    foldl_addToGroups h (fun g hg => (by cases hg))
  have hmap : (rules.map fun r => [r]).mapM (mergeGroup A) = .ok (rules.map fun r => [r]) := by
    rw [mapM_eq_ok_iff, List.forall₂_same]
    intro g hg
    obtain ⟨r, _, rfl⟩ := List.mem_map.mp hg
    rfl
  have hflat : (rules.map fun r => [r]).flatten = rules := by
    rw [← List.flatMap_def, List.flatMap_singleton']
  unfold merge
  rw [hgroups, hmap]
  show Except.ok (rules.map fun r => [r]).flatten = _
  rw [hflat]

/-! ## Compilation -/

theorem create_eq_ok {A : ScoreAlgebra P W} {head : RuleHead} {p : P} {r : Rule P W}
    (h : Rule.create A head p = .ok r) :
    Probability.IsProper p ∧ r = .given ⟨head, p, A.ofProbability p, [], 0⟩ := by
  unfold Rule.create Rule.make at h
  split at h
  · next hp =>
    cases h
    exact ⟨hp, rfl⟩
  · cases h

/-- A proper probability makes a rule. -/
theorem create_of_isProper (A : ScoreAlgebra P W) (head : RuleHead) {p : P}
    (hp : Probability.IsProper p) :
    Rule.create A head p = .ok (.given ⟨head, p, A.ofProbability p, [], 0⟩) :=
  if_pos hp

section Compiled

variable [DecidableEq P] [DecidableEq W]

/-- The rules that the parser uses, by category. -/
def compiledRules (G : Grammar P W) : List (Rule P W) :=
  G.productions.flatMap fun entry => entry.2.map (·.rule)

/-- How a well-formed grammar came about, part by part. -/
structure Compiled (solver : Solver P) (G : Grammar P W) : Prop where
  /-- Every rule was given with a proper probability, which its weight encodes. -/
  given : ∀ r ∈ G.rules, ∃ head p, Probability.IsProper p ∧
    r = .given ⟨head, p, G.algebra.ofProbability p, [], 0⟩
  plain : ∀ r ∈ G.rules, r.head.IsPlain
  distinct : G.rules.Pairwise fun a b => ¬ (a.head == b.head) = true
  index : G.index = RuleIndex.ofRules G.rules
  nullable : G.nullable = Empty.nullable G.index
  masses : Empty.masses G.index G.nullable = .ok G.masses
  choices : G.choices = Empty.choices G.index
  productions : ∃ flat, Omission.eliminate G.algebra G.nullable (Empty.massAt G.masses)
    (Empty.bestAt G.choices) G.rules = .ok flat ∧
    G.productions = indexProductions G.names flat
  leftCorners : ∃ rows, Star.closure solver G.names (leftEdges G.names G.compiledRules) = .ok rows ∧
    G.leftCorners = encode G.algebra rows
  unitChains : ∃ rows, Star.closure solver G.names (unitEdges G.names G.compiledRules) = .ok rows ∧
    G.unitChains = encode G.algebra rows

/-- A grammar that a builder built. -/
def Built (solver : Solver P) (A : ScoreAlgebra P W) (G : Grammar P W) : Prop :=
  ∃ b : Builder P W, b.Collected A ∧ b.build solver = .ok G

theorem built_of_compile {solver : Solver P} {A : ScoreAlgebra P W} {normalize : Bool}
    {rules : List (RuleHead × P)} {G : Grammar P W}
    (h : Builder.compile solver A normalize rules = .ok G) : G.Built solver A := by
  obtain ⟨b, hb, hbuild⟩ := bind_eq_ok.mp h
  exact ⟨b, (Builder.Collected.empty normalize).addRules hb, hbuild⟩

/-- What compiling tidy rules returns. -/
theorem ofRules_eq_ok {solver : Solver P} {A : ScoreAlgebra P W} {rules : List (Rule P W)}
    {G : Grammar P W} (h : ofRules solver A rules = .ok G)
    (hgiven : ∀ r ∈ rules, ∃ head p, Probability.IsProper p ∧
      r = .given ⟨head, p, A.ofProbability p, [], 0⟩)
    (hplain : ∀ r ∈ rules, r.head.IsPlain)
    (hdistinct : rules.Pairwise fun a b => ¬ (a.head == b.head) = true) :
    Compiled solver G ∧ G.algebra = A := by
  unfold ofRules at h
  rw [merge_of_distinct A hdistinct] at h
  obtain ⟨rules', hrules', h⟩ := bind_eq_ok.mp h
  cases hrules'
  obtain ⟨masses, hmasses, h⟩ := bind_eq_ok.mp h
  obtain ⟨flat, hflat, h⟩ := bind_eq_ok.mp h
  obtain ⟨left, hleft, h⟩ := bind_eq_ok.mp h
  obtain ⟨unit, hunit, h⟩ := bind_eq_ok.mp h
  rw [mapError_eq_ok] at hmasses hflat hleft hunit
  cases h
  exact ⟨⟨hgiven, hplain, hdistinct, rfl, rfl, hmasses, rfl, ⟨flat, hflat, rfl⟩,
    ⟨left, hleft, rfl⟩, ⟨unit, hunit, rfl⟩⟩, rfl⟩

omit [DecidableEq P] [DecidableEq W] in
/-- The rules of tidy entries are tidy. -/
theorem tidy_rules {A : ScoreAlgebra P W} {entries : List (RuleEntry P)} (h : Builder.Tidy entries)
    {rules : List (Rule P W)} (hrules : entries.mapM (fun e =>
      (Rule.create A e.head e.probability).mapError GrammarError.improperRule) = .ok rules) :
    (∀ r ∈ rules, ∃ head p, Probability.IsProper p ∧
      r = .given ⟨head, p, A.ofProbability p, [], 0⟩) ∧
    (∀ r ∈ rules, r.head.IsPlain) ∧ rules.Pairwise fun a b => ¬ (a.head == b.head) = true := by
  have hheads : rules.map (·.head) = entries.map (·.head) := by
    have hall := mapM_eq_ok_iff.mp hrules
    clear hrules h
    induction hall with
    | nil => rfl
    | cons hcreate _ ih =>
      obtain ⟨_, rfl⟩ := create_eq_ok (mapError_eq_ok.mp hcreate)
      rw [List.map_cons, List.map_cons, ih]
      rfl
  obtain ⟨hplain, hdistinct⟩ := Builder.tidy_iff.mp h
  rw [← hheads] at hplain hdistinct
  refine ⟨fun r hr => ?_, fun r hr => hplain _ (List.mem_map_of_mem hr),
    List.pairwise_map.mp hdistinct⟩
  obtain ⟨e, _, he⟩ := exists_of_mem_mapM hrules hr
  obtain ⟨hp, hr⟩ := create_eq_ok (mapError_eq_ok.mp he)
  exact ⟨e.head, e.probability, hp, hr⟩

/-- **A grammar that a builder built is compiled** from tidy rules. -/
theorem Built.compiled {solver : Solver P} {A : ScoreAlgebra P W} {G : Grammar P W}
    (h : Built solver A G) : Compiled solver G ∧ G.algebra = A := by
  obtain ⟨b, hb, hbuild⟩ := h
  obtain ⟨htidy, rfl⟩ := hb.tidy
  unfold Builder.build at hbuild
  obtain ⟨rules, hrules, hbuild⟩ := bind_eq_ok.mp hbuild
  obtain ⟨hgiven, hplain, hdistinct⟩ := tidy_rules (Builder.tidy_ready htidy _) hrules
  exact ofRules_eq_ok hbuild hgiven hplain hdistinct

end Compiled

end Grammar
end StochasticGrammar
