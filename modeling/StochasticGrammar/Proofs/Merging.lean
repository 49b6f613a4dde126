import StochasticGrammar.Proofs.Exact
import StochasticGrammar.Proofs.Repetition

/-!
# Collecting and merging

Repeated rules become one in two places. A builder adds up probabilities as the rules come, and a
grammar that is compiled from a list of rules puts the repeated ones into groups and makes one rule
of each. In exact arithmetic both come to the same: one rule for everything that is said, in the
spelling and at the place of its first appearance, with the sum of the probabilities.

> `entries_eq`: what a builder holds.

> `merge_created`: the groups make the rules that the entries make.

> `collecting_and_merging_agree`: both ways lead to the same grammar or to the same refusal, and
> compiling the merged rules again changes nothing.
-/

namespace StochasticGrammar

variable {K W : Type} [Field K] [LinearOrder K]

/-- The sum of the probabilities given for what a head says. -/
def totalGiven (given : List (RuleHead × K)) (h : RuleHead) : K :=
  ((given.filter fun r => r.1 == h).map (·.2)).sum

theorem totalGiven_concat (given : List (RuleHead × K)) (r : RuleHead × K) (h : RuleHead) :
    totalGiven (given ++ [r]) h = totalGiven given h + if r.1 == h then r.2 else 0 := by
  unfold totalGiven
  rw [List.filter_append, List.map_append, List.sum_append]
  by_cases hr : (r.1 == h) = true
  · simp [hr]
  · simp [hr]

/-- Nothing was given for what no rule says. -/
theorem totalGiven_of_new {given : List (RuleHead × K)} {h : RuleHead}
    (hnew : ¬ (given.map (·.1)).any (· == h) = true) : totalGiven given h = 0 := by
  have hnone : given.filter (fun r => r.1 == h) = [] := by
    rw [List.filter_eq_nil_iff]
    intro r hr hrh
    exact hnew (List.any_eq_true.mpr ⟨r.1, List.mem_map_of_mem hr, hrh⟩)
  rw [totalGiven, hnone]
  rfl

/-! ## Entries -/

namespace Builder

/-- The entries that a builder comes to hold. -/
def entriesOf (given : List (RuleHead × K)) : List (RuleEntry K) :=
  given.foldl (fun entries r => addEntry entries ⟨r.1, r.2⟩) []

/-- Rules that pass the checks are taken one after the other. -/
theorem addRules_of_checked (b : Builder K W) {given : List (RuleHead × K)}
    (hgiven : ∀ r ∈ given, Probability.IsProper r.2 ∧ r.1.IsPlain) :
    b.addRules given = .ok { b with
      entries := given.foldl (fun entries r => addEntry entries ⟨r.1, r.2⟩) b.entries } := by
  induction given generalizing b with
  | nil => rfl
  | cons r given ih =>
    obtain ⟨hr, hgiven⟩ := List.forall_mem_cons.mp hgiven
    exact bind_eq_ok.mpr ⟨_, add_eq_ok_iff.mpr ⟨hr, rfl⟩, ih _ hgiven⟩

/-- Adding to one of the entries under distinct heads, or a new one. -/
theorem addEntry_map {heads : List RuleHead} (total : RuleHead → K) (head : RuleHead) (p : K)
    (hdistinct : heads.Pairwise fun a b => ¬ (a == b) = true)
    (hnew : ¬ heads.any (· == head) = true → total head = 0) :
    addEntry (heads.map fun h => ⟨h, total h⟩) ⟨head, p⟩
      = (if heads.any (· == head) then heads else heads ++ [head]).map fun h =>
          ⟨h, total h + if head == h then p else 0⟩ := by
  induction heads with
  | nil => simp [addEntry, hnew]
  | cons x heads ih =>
    obtain ⟨hx, hdistinct⟩ := List.pairwise_cons.mp hdistinct
    rw [List.map_cons, addEntry, List.any_cons]
    by_cases hxh : (x == head) = true
    · -- the others say something else and stay as they are
      have hothers : ∀ h ∈ heads, ¬ (head == h) = true := fun h hh hhead =>
        hx h hh (BEq.trans hxh hhead)
      have hsame : heads.map (fun h => (⟨h, total h⟩ : RuleEntry K))
          = heads.map fun h => ⟨h, total h + if head == h then p else 0⟩ :=
        List.map_congr_left fun h hh => by rw [if_neg (hothers h hh), add_zero]
      rw [if_pos hxh, hxh, Bool.true_or, if_pos rfl, List.map_cons, if_pos (BEq.symm hxh), hsame]
    · have hhx : ¬ (head == x) = true := fun hhx => hxh (BEq.symm hhx)
      rw [if_neg hxh, Bool.eq_false_iff.mpr hxh, Bool.false_or,
        ih hdistinct fun h =>
          hnew (by rwa [List.any_cons, Bool.eq_false_iff.mpr hxh, Bool.false_or])]
      by_cases hany : heads.any (· == head) = true
      · rw [if_pos hany, if_pos hany, List.map_cons, if_neg hhx, add_zero]
      · rw [if_neg hany, if_neg hany, List.cons_append, List.map_cons, if_neg hhx, add_zero]

/-- **What a builder holds**: everything that was said, in order of first appearance, with what was
given for it. -/
theorem entries_eq (given : List (RuleHead × K)) :
    entriesOf given = (given.map (·.1)).eraseDups.map fun h => ⟨h, totalGiven given h⟩ := by
  induction given using List.reverseRecOn with
  | nil => rfl
  | append_singleton given r ih =>
    have hadd : entriesOf (given ++ [r]) = addEntry (entriesOf given) ⟨r.1, r.2⟩ :=
      List.foldl_concat ..
    rw [hadd, ih, addEntry_map _ _ _ (pairwise_eraseDups _), any_eraseDups, List.map_append,
      List.map_singleton, eraseDups_concat]
    · simp only [totalGiven_concat]
    · intro hnew
      rw [any_eraseDups] at hnew
      exact totalGiven_of_new hnew

end Builder

/-! ## Groups -/

namespace Grammar

variable {A : ScoreAlgebra K W}

/-- A group of created rules that say the same as an entry, and whose probabilities it adds up. -/
structure SumsUp (A : ScoreAlgebra K W) (group : List (Rule K W)) (e : RuleEntry K) : Prop where
  first : ∃ r rest, group = r :: rest ∧ r.head = e.head
  probability : (group.map Rule.probability).sum = e.probability
  created : ∀ r ∈ group, Rule.create A r.head r.probability = .ok r

theorem head_of_create {head : RuleHead} {p : K} {r : Rule K W} (h : Rule.create A head p = .ok r) :
    r.head = head ∧ r.probability = p := by
  obtain ⟨_, rfl⟩ := create_eq_ok h
  exact ⟨rfl, rfl⟩

/-- A rule joins the group that says the same, as its probability joins the entry. -/
theorem sumsUp_addToGroups {groups : List (List (Rule K W))} {entries : List (RuleEntry K)}
    (h : List.Forall₂ (SumsUp A) groups entries) {head : RuleHead} {p : K} {r : Rule K W}
    (hr : Rule.create A head p = .ok r) :
    List.Forall₂ (SumsUp A) (addToGroups groups r) (Builder.addEntry entries ⟨head, p⟩) := by
  obtain ⟨rfl, rfl⟩ := head_of_create hr
  induction h with
  | nil =>
    refine .cons ⟨⟨r, [], rfl, rfl⟩, List.sum_singleton, fun x hx => ?_⟩ .nil
    rw [List.mem_singleton.mp hx]
    exact hr
  | @cons g e groups entries hg hrest ih =>
    obtain ⟨⟨x, rest, rfl, hx⟩, hprobability, hcreated⟩ := hg
    -- a group is asked for its first rule, which says what the entry says
    have hasked : (x :: rest).head?.any (fun c => c.head == r.head) = (e.head == r.head) := by
      rw [← hx]
      rfl
    rw [addToGroups, Builder.addEntry, hasked]
    by_cases hsame : (e.head == r.head) = true
    · rw [if_pos hsame, if_pos hsame]
      refine .cons ⟨⟨x, rest ++ [r], rfl, hx⟩, ?_, fun c hc => ?_⟩ hrest
      · rw [List.map_append, List.sum_append, hprobability, List.map_singleton, List.sum_singleton]
      · rcases List.mem_append.mp hc with hc | hc
        · exact hcreated c hc
        · rw [List.mem_singleton.mp hc]
          exact hr
    · rw [if_neg hsame, if_neg hsame]
      exact .cons ⟨⟨x, rest, rfl, hx⟩, hprobability, hcreated⟩ ih

/-- The groups of rules that are created one by one add up to the entries of a builder. -/
theorem sumsUp_groups {given : List (RuleHead × K)} {created : List (Rule K W)}
    (hcreated : List.Forall₂ (fun r c => Rule.create A r.1 r.2 = .ok c) given created)
    {groups : List (List (Rule K W))} {entries : List (RuleEntry K)}
    (h : List.Forall₂ (SumsUp A) groups entries) :
    List.Forall₂ (SumsUp A) (created.foldl addToGroups groups)
      (given.foldl (fun entries r => Builder.addEntry entries ⟨r.1, r.2⟩) entries) := by
  induction hcreated generalizing groups entries with
  | nil => exact h
  | cons hr _ ih => exact ih (sumsUp_addToGroups h hr)

/-- A group makes the rule that its entry makes. -/
theorem mergeGroup_of_sumsUp {group : List (Rule K W)} {e : RuleEntry K} (h : SumsUp A group e) :
    mergeGroup A group = (Rule.create A e.head e.probability).map fun r => [r] := by
  obtain ⟨⟨r, rest, rfl, hr⟩, hprobability, hcreated⟩ := h
  rw [← hr, ← hprobability]
  cases rest with
  | nil =>
    -- a rule alone is kept as it was created
    have hsum : ([r].map Rule.probability).sum = r.probability := List.sum_singleton
    rw [hsum, hcreated r List.mem_cons_self]
    rfl
  | cons r' rest =>
    show (Rule.create A r.head ((r :: r' :: rest).map Rule.probability).sum >>=
      fun c => pure [c]) = _
    cases Rule.create A r.head ((r :: r' :: rest).map Rule.probability).sum with
    | error e => rfl
    | ok c => rfl

/-- **Merging makes the rules that a builder makes** of its entries. -/
theorem merge_created {given : List (RuleHead × K)} {created : List (Rule K W)}
    (hcreated : List.Forall₂ (fun r c => Rule.create A r.1 r.2 = .ok c) given created) :
    merge A created
      = (Builder.entriesOf given).mapM fun e => Rule.create A e.head e.probability := by
  have hgroups : List.Forall₂ (SumsUp A) (created.foldl addToGroups [])
      (given.foldl (fun entries r => Builder.addEntry entries ⟨r.1, r.2⟩) []) :=
    sumsUp_groups hcreated .nil
  have hmerged := mapM_eq_of_forall₂ (hgroups.imp fun _ _ h => mergeGroup_of_sumsUp h)
  rw [← map_mapM] at hmerged
  unfold merge
  rw [hmerged]
  show _ = (Builder.entriesOf given).mapM _
  unfold Builder.entriesOf
  cases List.mapM (fun e => Rule.create A e.head e.probability)
      (given.foldl (fun entries r => Builder.addEntry entries ⟨r.1, r.2⟩) []) with
  | error e => rfl
  | ok rules =>
    show Except.ok (rules.map fun r => [r]).flatten = Except.ok rules
    rw [← List.flatMap_def, List.flatMap_singleton']

/-! ## Compiling -/

variable [DecidableEq W] {solver : Solver K}

/-- What is compiled from rules that are created one by one. -/
def compileEach (solver : Solver K) (A : ScoreAlgebra K W) (given : List (RuleHead × K)) :
    Except (GrammarError K) (Grammar K W) := do
  let created ← given.mapM fun r => (Rule.create A r.1 r.2).mapError GrammarError.improperRule
  ofRules solver A created

/-- Compiling knows the given rules only as they have been merged. -/
theorem ofRules_congr {rules rules' : List (Rule K W)} (h : merge A rules = merge A rules') :
    ofRules solver A rules = ofRules solver A rules' := by
  unfold ofRules
  rw [h]

theorem ofRules_of_merge_error {rules : List (Rule K W)} {e : ImproperRule K}
    (h : merge A rules = .error e) : ofRules solver A rules = .error (.improperRule e) := by
  unfold ofRules
  rw [h]
  rfl

/-- The rules of a compiled grammar are the merged ones. -/
theorem rules_of_ofRules {rules : List (Rule K W)} {G : Grammar K W}
    (h : ofRules solver A rules = .ok G) : merge A rules = .ok G.rules := by
  unfold ofRules at h
  obtain ⟨merged, hmerged, h⟩ := bind_eq_ok.mp h
  obtain ⟨_, _, h⟩ := bind_eq_ok.mp h
  obtain ⟨_, _, h⟩ := bind_eq_ok.mp h
  obtain ⟨_, _, h⟩ := bind_eq_ok.mp h
  obtain ⟨_, _, h⟩ := bind_eq_ok.mp h
  cases h
  exact mapError_eq_ok.mp hmerged

omit [DecidableEq W] in
/-- Merged rules are not merged any further. -/
theorem merge_of_entries {given : List (RuleHead × K)} {rules : List (Rule K W)}
    (h : (Builder.entriesOf given).mapM (fun e => Rule.create A e.head e.probability) = .ok rules) :
    rules = (given.map (·.1)).eraseDups.map (fun h =>
      .given ⟨h, totalGiven given h, A.ofProbability (totalGiven given h), [], 0⟩) ∧
    merge A rules = .ok rules := by
  rw [Builder.entries_eq] at h
  have hrules : rules = (given.map (·.1)).eraseDups.map (fun h =>
      .given ⟨h, totalGiven given h, A.ofProbability (totalGiven given h), [], 0⟩) := by
    rw [← List.map_id rules, map_eq_of_mapM (g := fun e : RuleEntry K =>
      .given ⟨e.head, e.probability, A.ofProbability e.probability, [], 0⟩) h, List.map_map]
    · rfl
    · intro e _ r hr
      exact (create_eq_ok hr).2
  refine ⟨hrules, merge_of_distinct A ?_⟩
  rw [hrules, List.pairwise_map]
  exact pairwise_eraseDups _

/-- **Collecting and merging agree.** In exact arithmetic and whatever the scores, rules with proper
probabilities that mention no start symbol and expand no terminal object are compiled to the same
grammar, or refused for the same reason, whether a builder collects them or they are created one by
one and merged. The grammar has one rule for everything that is said, in order of first appearance,
with the sum of the probabilities given for it, and compiling its rules again gives the same
grammar. -/
theorem collecting_and_merging_agree (solver : Solver K) (A : ScoreAlgebra K W)
    {given : List (RuleHead × K)}
    (hgiven : ∀ r ∈ given, (0 < r.2 ∧ r.2 ≤ 1) ∧ r.1.IsPlain) :
    Builder.compile solver A false given = compileEach solver A given ∧
    ∀ G, Builder.compile solver A false given = .ok G →
      G.rules = (given.map (·.1)).eraseDups.map (fun h =>
        .given ⟨h, totalGiven given h, A.ofProbability (totalGiven given h), [], 0⟩) ∧
      ofRules solver A G.rules = .ok G := by
  have hproper : ∀ r ∈ given, Probability.IsProper r.2 ∧ r.1.IsPlain :=
    fun r hr => ⟨⟨rfl, (hgiven r hr).1⟩, (hgiven r hr).2⟩
  obtain ⟨created, hcreated⟩ : ∃ created, List.Forall₂
      (fun r c => Rule.create A r.1 r.2 = .ok c) given created := by
    refine exists_forall₂ fun r hr => ?_
    exact ⟨_, create_of_isProper A r.1 (hproper r hr).1⟩
  have hmerge := merge_created hcreated
  have hcollect : Builder.compile solver A false given
      = (((Builder.entriesOf given).mapM fun e => Rule.create A e.head e.probability).mapError
          GrammarError.improperRule >>= ofRules solver A) := by
    rw [Builder.compile, Builder.addRules_of_checked _ hproper]
    show ((Builder.entriesOf given).mapM (fun e =>
      (Rule.create A e.head e.probability).mapError GrammarError.improperRule) >>= _) = _
    rw [mapM_mapError]
    rfl
  have hdirect : compileEach solver A given = ofRules solver A created := by
    rw [compileEach, mapM_mapError, mapM_eq_ok_iff.mpr hcreated]
    rfl
  rw [hcollect, hdirect]
  cases hentries : (Builder.entriesOf given).mapM fun e => Rule.create A e.head e.probability with
  | error e =>
    rw [hentries] at hmerge
    refine ⟨(ofRules_of_merge_error hmerge).symm, fun G hG => ?_⟩
    cases hG
  | ok rules =>
    rw [hentries] at hmerge
    obtain ⟨hrules, hmerged⟩ := merge_of_entries hentries
    refine ⟨ofRules_congr (hmerged.trans hmerge.symm), fun G hG => ?_⟩
    have hG : ofRules solver A rules = .ok G := hG
    have heq : G.rules = rules := by
      have hmergedG := rules_of_ofRules hG
      rw [hmerged] at hmergedG
      cases hmergedG
      rfl
    rw [heq]
    exact ⟨hrules, hG⟩

/-! ## Repeated rules -/

/-- A rule that is given twice, the second time in another spelling, around a rule for unexpected
tokens that says the same. -/
def repeatedRules : List (RuleHead × ℚ) :=
  [(⟨.plain, .name "S", [.terminal (.exact (.integer 1))]⟩, 1 / 4),
    (⟨.lexicalError, .name "S", [.terminal (.exact (.integer 1))]⟩, 1 / 8),
    (⟨.plain, .name "S", [.terminal (.exact (.truth true))]⟩, 1 / 2)]

/-- The same rules with too much probability given for one of them in all. -/
def excessiveRules : List (RuleHead × ℚ) :=
  repeatedRules ++ [(⟨.plain, .name "S", [.terminal (.exact (.integer 1))]⟩, 1 / 2)]

/-- Repeated rules are merged into one, in the first spelling, apart from the rule for unexpected
tokens. When they make up more than one, both ways refuse what was given for them in all. -/
theorem repeated_rules_collect_and_merge_alike :
    (∀ r ∈ excessiveRules, (0 < r.2 ∧ r.2 ≤ 1) ∧ r.1.IsPlain) ∧
    (∃ G, Builder.compile rationalSolver (linearScores ℚ) false repeatedRules = .ok G ∧
      compileEach rationalSolver (linearScores ℚ) repeatedRules = .ok G ∧
      G.rules = [
        .given ⟨⟨.plain, .name "S", [.terminal (.exact (.integer 1))]⟩, 3 / 4, 3 / 4, [], 0⟩,
        .given ⟨⟨.lexicalError, .name "S", [.terminal (.exact (.integer 1))]⟩,
          1 / 8, 1 / 8, [], 0⟩] ∧
      ofRules rationalSolver (linearScores ℚ) G.rules = .ok G) ∧
    ∃ e, Builder.compile rationalSolver (linearScores ℚ) false excessiveRules
        = .error (.improperRule e) ∧
      compileEach rationalSolver (linearScores ℚ) excessiveRules = .error (.improperRule e) ∧
      e.probability = 5 / 4 := by
  have hgiven : ∀ r ∈ excessiveRules, (0 < r.2 ∧ r.2 ≤ 1) ∧ r.1.IsPlain := by
    simp [excessiveRules, repeatedRules, RuleHead.IsPlain, Category.isTerminalObject]
    decide +kernel
  have hrepeated : ∀ r ∈ repeatedRules, (0 < r.2 ∧ r.2 ≤ 1) ∧ r.1.IsPlain :=
    fun r hr => hgiven r (List.mem_append_left _ hr)
  refine ⟨hgiven, ?_, ?_⟩
  · obtain ⟨hagree, hmerged⟩ :=
      collecting_and_merging_agree rationalSolver (linearScores ℚ) hrepeated
    obtain ⟨G, hG, -⟩ : ∃ G, Builder.compile rationalSolver (linearScores ℚ) false repeatedRules
        = .ok G ∧ (fun _ => true) G = true :=
      any_toOption.mp (by decide +kernel)
    obtain ⟨hrules, hagain⟩ := hmerged G hG
    refine ⟨G, hG, hagree ▸ hG, hrules.trans ?_, hagain⟩
    decide +kernel
  · obtain ⟨hagree, -⟩ := collecting_and_merging_agree rationalSolver (linearScores ℚ) hgiven
    have hrefused : (match Builder.compile rationalSolver (linearScores ℚ) false excessiveRules with
        | .error (.improperRule e) => decide (e.probability = 5 / 4)
        | _ => false) = true := by
      decide +kernel
    split at hrefused
    · next e he => exact ⟨e, he, hagree ▸ he, of_decide_eq_true hrefused⟩
    · cases hrefused

end Grammar

end StochasticGrammar
