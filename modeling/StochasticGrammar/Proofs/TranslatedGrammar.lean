import StochasticGrammar.Proofs.Chains
import StochasticGrammar.Proofs.Corners
import StochasticGrammar.Proofs.Emptiness
import StochasticGrammar.Proofs.Translation

/-!
# Compiling in translation

Rules that were translated compile to the translated grammar, and they are refused if and only if
the rules were. What can be empty, how probably, and along which chains is computed from the
categories that rules expand, which have one spelling, and from probabilities, which stay. Only in
the end is a number encoded as a score, and no such number is negative.

> `toOption_ofRules`: compiling rules.

> `toOption_compile`: what a builder makes of translated rules.
-/

namespace StochasticGrammar

/-! ## Tables -/

namespace Table

variable {κ ν ν' : Type} [BEq κ]

/-- A table with its values changed is looked up and then changed. -/
theorem get?_map_values (f : ν → ν') (t : Table κ ν) (k : κ) :
    get? (t.map fun entry => (entry.1, f entry.2)) k = (get? t k).map f := by
  induction t with
  | nil => rfl
  | cons entry t ih =>
    obtain ⟨k', v⟩ := entry
    rw [List.map_cons, get?_cons, get?_cons, ih]
    split <;> rfl

/-- A value may be changed before it is entered in a table or after. -/
theorem insert_map_values (f : ν → ν') (t : Table κ ν) (k : κ) (v : ν) :
    insert (t.map fun entry => (entry.1, f entry.2)) k (f v)
      = (insert t k v).map fun entry => (entry.1, f entry.2) := by
  induction t with
  | nil => rfl
  | cons entry t ih =>
    obtain ⟨k', v'⟩ := entry
    rw [List.map_cons, insert, insert, ih]
    split <;> rfl

end Table

namespace Grammar

variable {P W : Type} [Probability P] [DecidableEq P] [DecidableEq W]

/-- The last step of compilation: the chains of the productions are summed. -/
def withChains (solver : Solver P) (A : ScoreAlgebra P W) (rules : List (Rule P W))
    (masses : Empty.Masses P) (flat : List (Production P W)) : Option (Grammar P W) :=
  let index := RuleIndex.ofRules rules
  let productions := indexProductions index.keys flat
  let compiled := productions.flatMap fun entry => entry.2.map (·.rule)
  (Star.closure solver index.keys (leftEdges index.keys compiled)).toOption.bind fun left =>
  (Star.closure solver index.keys (unitEdges index.keys compiled)).toOption.map fun unit =>
  { algebra := A, rules, index, nullable := Empty.nullable index, masses,
    choices := Empty.choices index, productions, leftCorners := encode A left,
    unitChains := encode A unit }

/-- How rules compile that all say something different: step by step, each of which may refuse. -/
theorem toOption_ofRules_of_distinct {solver : Solver P} {A : ScoreAlgebra P W}
    {rules : List (Rule P W)}
    (hdistinct : rules.Pairwise fun a b => ¬ (a.head == b.head) = true) :
    (ofRules solver A rules).toOption
      = (Empty.masses (RuleIndex.ofRules rules)
          (Empty.nullable (RuleIndex.ofRules rules))).toOption.bind fun masses =>
        (Omission.eliminate A (Empty.nullable (RuleIndex.ofRules rules)) (Empty.massAt masses)
          (Empty.bestAt (Empty.choices (RuleIndex.ofRules rules))) rules).toOption.bind fun flat =>
        withChains solver A rules masses flat := by
  unfold ofRules withChains
  rw [merge_of_distinct A hdistinct]
  simp only [toOption_bind, toOption_mapError]
  simp only [Except.toOption, Option.bind_some, pure, Except.pure, Option.map_eq_bind]
  rfl

end Grammar

namespace Translation

section Compile

variable {P W W' : Type} [Probability P] {A : ScoreAlgebra P W} {A' : ScoreAlgebra P W'}
  (T : Translation A A')

/-! ## What rules expand -/

theorem get?_index (index : RuleIndex P W) (x : Category) :
    Table.get? (T.index index) x = (Table.get? index x).map (List.map T.rule) :=
  Table.get?_map_values _ index x

/-- A category is expanded by the translated rules. -/
theorem rulesOf_index (index : RuleIndex P W) (x : Category) :
    (T.index index).rulesOf x = (index.rulesOf x).map T.rule := by
  rw [RuleIndex.rulesOf, RuleIndex.rulesOf, T.get?_index]
  cases Table.get? index x <;> rfl

/-- Translated rules expand the same names. -/
theorem keys_index (index : RuleIndex P W) : Table.keys (T.index index) = Table.keys index := by
  simp [Translation.index, Table.keys, Function.comp_def]

/-- Rules are grouped in translation as they were before. -/
theorem ofRules_map (rules : List (Rule P W)) :
    RuleIndex.ofRules (rules.map T.rule) = T.index (RuleIndex.ofRules rules) := by
  unfold RuleIndex.ofRules
  rw [List.foldl_map, show ([] : RuleIndex P W') = T.index [] from rfl]
  refine List.foldl_hom T.index fun index r => ?_
  have hnew : ((Table.get? (T.index index) r.lhs).getD []) ++ [T.rule r]
      = (((Table.get? index r.lhs).getD []) ++ [r]).map T.rule := by
    rw [T.get?_index]
    cases Table.get? index r.lhs <;> simp
  rw [T.lhs_rule, hnew]
  exact Table.insert_map_values (List.map T.rule) index r.lhs _

/-! ## What can be empty -/

/-- A rule can vanish in translation if and only if it could before. -/
theorem isCovered_rule (known : List Category) (r : Rule P W) :
    Empty.isCovered known (T.rule r) = Empty.isCovered known r := by
  rw [Empty.isCovered, Empty.isCovered, T.rhs_rule, List.all_map]
  exact congrArg (fun f => r.rhs.all f) (funext fun c => T.contains_symbol known c)

/-- **The same categories can be empty.** -/
theorem nullable_index (index : RuleIndex P W) :
    Empty.nullable (T.index index) = Empty.nullable index := by
  have hround : Empty.nullableRound (T.index index) = Empty.nullableRound index := by
    funext known
    unfold Empty.nullableRound Translation.index
    rw [List.foldl_map]
    simp only [List.any_map, Function.comp_def, T.isCovered_rule]
  rw [Empty.nullable, Empty.nullable, hround, Translation.index, List.length_map]

/-- A function of categories that does not see how they are spelled. -/
def Blind {ν : Type} (f : Category → ν) : Prop :=
  ∀ c, f (T.symbol c) = f c

/-- How probably a symbol is empty does not depend on its spelling. -/
theorem blind_massAt (e : Empty.Masses P) : T.Blind (Empty.massAt e) := by
  intro c
  rw [Empty.massAt, Empty.massAt, T.get?_symbol]

theorem blind_bestAt (best : Empty.Choices P W) : T.Blind (Empty.bestAt best) := by
  intro c
  rw [Empty.bestAt, Empty.bestAt, T.get?_symbol]

/-- What does not depend on spelling reads the same off a translated right side. -/
theorem Blind.map_rhs {ν : Type} {f : Category → ν} (hf : T.Blind f) (r : Rule P W) :
    (T.rule r).rhs.map f = r.rhs.map f := by
  rw [T.rhs_rule, List.map_map]
  exact List.map_congr_left fun c _ => hf c

/-- **They are empty with the same probabilities**, which are found in the same round. -/
theorem masses_index (index : RuleIndex P W) (nullable : List Category) :
    Empty.masses (T.index index) nullable = Empty.masses index nullable := by
  have hround : Empty.massRound (T.index index) nullable = Empty.massRound index nullable := by
    funext e
    unfold Empty.massRound
    simp only [T.rulesOf_index, List.filter_map, List.map_map, Function.comp_def, T.isCovered_rule,
      T.probability_rule, (T.blind_massAt e).map_rhs]
  rw [Empty.masses, Empty.masses, hround, Empty.zeroMasses, T.keys_index, ← Empty.zeroMasses]

theorem get?_choices (best : Empty.Choices P W) (x : Category) :
    Table.get? (T.choices best) x = (Table.get? best x).map fun c => (c.1, T.rule c.2) :=
  Table.get?_map_values (fun c : P × Rule P W => (c.1, T.rule c.2)) best x

/-- How probable the best empty derivation is stays as it is. -/
theorem bestAt_choices (best : Empty.Choices P W) (x : Category) :
    Empty.bestAt (T.choices best) x = Empty.bestAt best x := by
  rw [Empty.bestAt, Empty.bestAt, T.get?_choices, Option.map_map]
  rfl

/-- A rule makes a category empty more probably in translation if and only if it did before. -/
theorem relax_choices (x : Category) (best : Empty.Choices P W) (r : Rule P W) :
    Empty.relax x (T.choices best) (T.rule r) = T.choices (Empty.relax x best r) := by
  have hrhs : ((T.rule r).rhs.mapM fun s => (Table.get? (T.choices best) s).map (·.1))
      = r.rhs.mapM fun s => (Table.get? best s).map (·.1) := by
    rw [T.rhs_rule, mapM_map (f := fun s => (Table.get? best s).map (·.1)) (k := id)]
    · rw [List.map_id_fun, Option.map_id_fun]
      rfl
    · intro s _
      rw [T.get?_symbol, T.get?_choices, Option.map_map, Option.map_id_fun]
      rfl
  unfold Empty.relax
  rw [hrhs, T.get?_choices, T.probability_rule]
  cases r.rhs.mapM fun s => (Table.get? best s).map (·.1) with
  | none => rfl
  | some ps =>
    have hinsert := Table.insert_map_values (fun c : P × Rule P W => (c.1, T.rule c.2)) best x
      (r.probability * Probability.prod ps, r)
    cases Table.get? best x with
    | none => exact hinsert
    | some old =>
      show (if old.1 < _ then _ else _) = T.choices (if old.1 < _ then _ else _)
      split
      · exact hinsert
      · rfl

/-- **The best empty derivations begin with the translated rules.** -/
theorem choices_index [DecidableEq P] [DecidableEq W] [DecidableEq W'] (index : RuleIndex P W) :
    Empty.choices (T.index index) = T.choices (Empty.choices index) := by
  have hround : ∀ best, Empty.choiceRound (T.index index) (T.choices best)
      = T.choices (Empty.choiceRound index best) := by
    intro best
    unfold Empty.choiceRound Translation.index
    rw [List.foldl_map]
    refine List.foldl_hom T.choices fun best entry => ?_
    rw [List.foldl_map]
    exact List.foldl_hom T.choices fun best r => T.relax_choices entry.1 best r
  rw [Empty.choices, Empty.choices, settle_eq_iterate, settle_eq_iterate, Translation.index,
    List.length_map]
  exact (Function.Semiconj.iterate_right (f := T.choices)
    (fun best => (hround best).symm) _ []).symm

end Compile

/-! ## Variants -/

section Variants

variable {K W W' : Type} [Field K] [LinearOrder K] {A : ScoreAlgebra K W} {A' : ScoreAlgebra K W'}
  (T : Translation A A')

/-- A place of a right side, with the symbol that stands there. -/
def place (place : Category × Nat) : Category × Nat :=
  (T.symbol place.1, place.2)

/-- An omission with the probability that it leaves to its rule. -/
def scaledOmission (entry : List (Category × Nat) × K) : List (Category × Nat) × K :=
  (entry.1.map T.place, entry.2)

/-- The same places of a right side may be left out. -/
theorem candidates_map (nullable rhs : List Category) :
    Omission.candidates nullable (rhs.map T.symbol)
      = (Omission.candidates nullable rhs).map T.place := by
  unfold Omission.candidates
  rw [List.zipIdx_map, List.filter_map]
  refine congrArg (List.map T.place) (List.filter_congr fun place _ => ?_)
  exact T.contains_symbol nullable place.1

/-- Choosing from a list and changing what it holds go together. -/
theorem choose_map {α β : Type} (f : α → β) (k : Nat) (xs : List α) :
    choose k (xs.map f) = (choose k xs).map (List.map f) := by
  induction xs generalizing k with
  | nil => cases k <;> rfl
  | cons x xs ih =>
    cases k with
    | zero => rfl
    | succ k => simp [choose, ih, Function.comp_def]

/-- The same places are left out together. -/
theorem omissions_map (nullable rhs : List Category) :
    Omission.omissions nullable (rhs.map T.symbol)
      = (Omission.omissions nullable rhs).map (List.map T.place) := by
  simp only [Omission.omissions, T.candidates_map, List.length_map, choose_map, List.filter_map,
    ← List.map_flatMap, Function.comp_def]

/-- What is left of a right side is respelled. -/
theorem remaining_map (rhs : List Category) (omitted : List Nat) :
    Omission.remaining (rhs.map T.symbol) omitted
      = (Omission.remaining rhs omitted).map T.symbol := by
  unfold Omission.remaining
  rw [List.zipIdx_map, List.filter_map, List.map_map, List.map_map]
  rfl

theorem Blind.map_place {ν : Type} {f : Category → ν} (hf : T.Blind f) (o : List (Category × Nat)) :
    (o.map T.place).map (fun place => f place.1) = o.map fun place => f place.1 := by
  rw [List.map_map]
  exact List.map_congr_left fun place _ => hf place.1

theorem ofRule_rule (r : Rule K W) : Production.ofRule (T.rule r) = T.production (.ofRule r) := by
  rw [Production.ofRule, T.weight_rule]
  rfl

/-- A rule that is made of translated parts. -/
theorem toOption_make {b : RuleBody K W} (source : Option (Rule K W)) :
    (Rule.make (T.body b) (source.map T.rule)).toOption
      = (Rule.make b source).toOption.map T.rule := by
  unfold Rule.make
  rw [show (T.body b).probability = b.probability from rfl]
  split
  · cases source <;> rfl
  · rfl

variable {nullable : List Category} {mass best : Category → K}

/-- The variant of a translated rule is the translated variant. Its score is encoded from a number,
which must not be negative. -/
theorem toOption_variant (hbest : T.Blind best) {r : Rule K W} {o : List (Category × Nat)} {p : K}
    (hp : 0 ≤ p) (hscore : 0 ≤ r.probability * Probability.prod (o.map fun place => best place.1)) :
    (Omission.variant A' best (T.rule r) (o.map T.place) p).toOption
      = (Omission.variant A best r o p).toOption.map T.production := by
  have hplaces : (o.map T.place).map (·.2) = o.map (·.2) := by
    rw [List.map_map]
    rfl
  have hbody :
      (⟨⟨(T.rule r).kind, (T.rule r).lhs, Omission.remaining (T.rule r).rhs (o.map (·.2))⟩, p,
      A'.ofProbability p, (o.map (·.2)).map Int.ofNat, 0⟩ : RuleBody K W')
        = T.body ⟨⟨r.kind, r.lhs, Omission.remaining r.rhs (o.map (·.2))⟩, p, A.ofProbability p,
            (o.map (·.2)).map Int.ofNat, 0⟩ := by
    rw [T.kind_rule, T.lhs_rule, T.rhs_rule, T.remaining_map, T.ofProbability hp]
    rfl
  unfold Omission.variant
  simp only [toOption_bind, hplaces, hbody, hbest.map_place, T.probability_rule,
    T.ofProbability hscore]
  rw [show some (T.rule r) = (some r).map T.rule from rfl, T.toOption_make]
  cases (Rule.make (⟨⟨r.kind, r.lhs, Omission.remaining r.rhs (o.map (·.2))⟩, p, A.ofProbability p,
    (o.map (·.2)).map Int.ofNat, 0⟩ : RuleBody K W) (some r)).toOption <;> rfl

/-- A translated rule is expanded to the translated variants. -/
theorem toOption_expand (hmass : T.Blind mass) (hbest : T.Blind best) {r : Rule K W}
    (hscore : ∀ o : List (Category × Nat),
      0 ≤ r.probability * Probability.prod (o.map fun place => best place.1)) :
    (Omission.expand A' nullable mass best (T.rule r)).toOption
      = (Omission.expand A nullable mass best r).toOption.map (List.map T.production) := by
  have hscaled : (Omission.omissions nullable (r.rhs.map T.symbol)).map (fun o =>
        (o, r.probability * Probability.prod (o.map fun place => mass place.1)))
      = ((Omission.omissions nullable r.rhs).map fun o =>
        (o, r.probability * Probability.prod (o.map fun place => mass place.1))).map
          T.scaledOmission := by
    rw [T.omissions_map, List.map_map, List.map_map]
    refine List.map_congr_left fun o _ => ?_
    simp only [Function.comp_apply, hmass.map_place, scaledOmission]
  have hvariants : (Omission.variants A' nullable mass best (T.rule r)).toOption
      = (Omission.variants A nullable mass best r).toOption.map (List.map T.production) := by
    unfold Omission.variants
    rw [toOption_mapM, toOption_mapM, T.rhs_rule, T.probability_rule, hscaled, List.filter_map,
      show (fun entry : List (Category × Nat) × K => decide (¬ entry.2 ≤ 0)) ∘ T.scaledOmission
        = fun entry => decide (¬ entry.2 ≤ 0) from rfl,
      mapM_map (g := T.scaledOmission)
        (f := fun entry => (Omission.variant A best r entry.1 entry.2).toOption)]
    intro entry hentry
    have hpos := of_decide_eq_true (List.mem_filter.mp hentry).2
    exact T.toOption_variant hbest (not_le.mp hpos).le (hscore entry.1)
  unfold Omission.expand
  rw [T.rhs_rule, List.isEmpty_map]
  split
  · rfl
  · simp only [toOption_bind, hvariants, T.ofRule_rule]
    cases (Omission.variants A nullable mass best r).toOption <;> rfl

/-- **Translated rules are freed from empty ones in translation**, or refused as the rules were. -/
theorem toOption_eliminate (hmass : T.Blind mass) (hbest : T.Blind best) {rules : List (Rule K W)}
    (hscore : ∀ r ∈ rules, ∀ o : List (Category × Nat),
      0 ≤ r.probability * Probability.prod (o.map fun place => best place.1)) :
    (Omission.eliminate A' nullable mass best (rules.map T.rule)).toOption
      = (Omission.eliminate A nullable mass best rules).toOption.map (List.map T.production) := by
  unfold Omission.eliminate
  rw [toOption_bind, toOption_bind, toOption_mapM, toOption_mapM,
    mapM_map (g := T.rule) (f := fun r => (Omission.expand A nullable mass best r).toOption)
      fun r hr => T.toOption_expand hmass hbest (hscore r hr)]
  cases rules.mapM fun r => (Omission.expand A nullable mass best r).toOption with
  | none => rfl
  | some flat => exact congrArg some List.map_flatten.symm

end Variants

/-! ## Chains -/

section Chains

variable {P W W' : Type} [Probability P] {A : ScoreAlgebra P W} {A' : ScoreAlgebra P W'}
  (T : Translation A A')

/-- Translated productions are kept under the same names. -/
theorem indexProductions_map (names : List Category) (flat : List (Production P W)) :
    Grammar.indexProductions names (flat.map T.production)
      = (Grammar.indexProductions names flat).map fun entry =>
          (entry.1, entry.2.map T.production) := by
  unfold Grammar.indexProductions
  rw [List.map_map]
  refine List.map_congr_left fun x _ => ?_
  rw [List.filter_map]
  simp only [Function.comp_def, production, T.lhs_rule]

theorem expands_symbol (names : List Category) (c : Category) :
    Grammar.expands names (T.symbol c) = Grammar.expands names c := by
  rw [Grammar.expands, Grammar.expands, T.isTerminalObject_symbol, T.contains_symbol]

/-- A symbol that rules expand has one spelling only. -/
theorem symbol_of_expands {names : List Category} {c : Category}
    (h : Grammar.expands names c = true) : T.symbol c = c := by
  refine T.symbol_of_plain ?_
  rw [Grammar.expands, Bool.and_eq_true, Bool.not_eq_true'] at h
  exact h.1

/-- The left corners of translated rules join the same names, with the same weights. -/
theorem leftEdges_map (names : List Category) (rules : List (Rule P W)) :
    Grammar.leftEdges names (rules.map T.rule) = Grammar.leftEdges names rules := by
  unfold Grammar.leftEdges
  rw [List.filterMap_map]
  refine List.filterMap_congr fun r _ => ?_
  rw [Function.comp_apply, T.rhs_rule]
  cases r.rhs with
  | nil => rfl
  | cons y rest =>
    rw [List.map_cons]
    dsimp only
    rw [T.expands_symbol, T.lhs_rule, T.probability_rule]
    split
    · rename_i hy
      rw [T.symbol_of_expands hy]
    · rfl

/-- So do translated unit rules. -/
theorem unitEdges_map (names : List Category) (rules : List (Rule P W)) :
    Grammar.unitEdges names (rules.map T.rule) = Grammar.unitEdges names rules := by
  unfold Grammar.unitEdges
  rw [List.filterMap_map]
  refine List.filterMap_congr fun r _ => ?_
  rw [Function.comp_apply, T.rhs_rule]
  rcases r.rhs with _ | ⟨y, _ | ⟨z, rest⟩⟩
  · rfl
  · rw [List.map_cons, List.map_nil]
    dsimp only
    rw [T.expands_symbol, T.lhs_rule, T.probability_rule]
    split
    · rename_i hy
      rw [T.symbol_of_expands hy]
    · rfl
  · rfl

/-- Numbers that are not negative are encoded as recoded scores. -/
theorem encode_chains {rows : Table Category (Table Category P)}
    (h : ∀ row ∈ rows, ∀ entry ∈ row.2, 0 ≤ entry.2) :
    Grammar.encode A' rows = T.chains (Grammar.encode A rows) := by
  unfold Grammar.encode chains
  rw [List.map_map]
  refine List.map_congr_left fun row hrow => congrArg (Prod.mk row.1) ?_
  rw [List.map_map]
  refine List.map_congr_left fun entry hentry => congrArg (Prod.mk entry.1) ?_
  exact T.ofProbability (h row hrow entry hentry)

end Chains

/-! ## Builders -/

section Builders

variable {K W W' : Type} [Field K] [LinearOrder K] {A : ScoreAlgebra K W} {A' : ScoreAlgebra K W'}
  (T : Translation A A')

/-- A collected rule in translation. -/
def entry (e : RuleEntry K) : RuleEntry K :=
  ⟨T.head e.head, e.probability⟩

/-- A translated rule is merged with the same rule, or collected as a new one. -/
theorem addEntry_map (entries : List (RuleEntry K)) (e : RuleEntry K) :
    Builder.addEntry (entries.map T.entry) (T.entry e)
      = (Builder.addEntry entries e).map T.entry := by
  induction entries with
  | nil => rfl
  | cons x xs ih =>
    rw [List.map_cons, Builder.addEntry, Builder.addEntry, ih,
      show ((T.entry x).head == (T.entry e).head) = (x.head == e.head) from T.head_beq _ _]
    split <;> rfl

/-- Normalisation changes numbers only. -/
theorem normalized_map (entries : List (RuleEntry K)) :
    Builder.normalized (entries.map T.entry) = (Builder.normalized entries).map T.entry := by
  have htotal : ∀ x, Builder.totalOf (entries.map T.entry) x = Builder.totalOf entries x := by
    intro x
    rw [Builder.totalOf, Builder.totalOf, List.filter_map, List.map_map]
    rfl
  unfold Builder.normalized
  rw [List.map_map, List.map_map]
  refine List.map_congr_left fun e _ => ?_
  rw [Function.comp_apply, htotal]
  rfl

/-- A builder in translation. -/
def builder (b : Builder K W) : Builder K W' :=
  ⟨A', b.normalize, b.entries.map T.entry⟩

/-- A builder takes a translated rule if and only if it took the rule. -/
theorem toOption_add (b : Builder K W) (head : RuleHead) (p : K) :
    ((T.builder b).add (T.head head) p).toOption = (b.add head p).toOption.map T.builder := by
  have hstart : (head.rhs.map T.symbol).contains .start = head.rhs.contains .start := by
    have h := T.contains_map_symbol head.rhs .start
    rwa [(T.symbol_eq_start_iff .start).mpr rfl] at h
  unfold Builder.add
  rw [show (T.head head).lhs = head.lhs from rfl,
    show (T.head head).rhs = head.rhs.map T.symbol from rfl, hstart]
  split
  · rfl
  · split
    · rfl
    · split
      · rfl
      · exact congrArg (fun entries => some (Builder.mk A' b.normalize entries))
          (T.addEntry_map b.entries ⟨head, p⟩)

/-- Translated rules go into a builder if and only if the rules do. -/
theorem toOption_addRules (b : Builder K W) (rules : List (RuleHead × K)) :
    ((T.builder b).addRules (rules.map fun r => (T.head r.1, r.2))).toOption
      = (b.addRules rules).toOption.map T.builder := by
  induction rules generalizing b with
  | nil => rfl
  | cons r rules ih =>
    unfold Builder.addRules at ih ⊢
    rw [List.map_cons, List.foldlM_cons, List.foldlM_cons, toOption_bind, toOption_bind,
      T.toOption_add]
    cases b.add r.1 r.2 with
    | error e => rfl
    | ok next => exact ih next

/-- An entry becomes a translated rule if and only if it became a rule. -/
theorem toOption_create (e : RuleEntry K) :
    (Rule.create A' (T.head e.head) e.probability).toOption
      = (Rule.create A e.head e.probability).toOption.map T.rule := by
  unfold Rule.create Rule.make
  dsimp only
  split
  · rename_i hp
    rw [T.ofProbability hp.2.1.le]
    rfl
  · rfl

end Builders

/-! ## Compilation -/

section Exact

variable {W W' : Type} {A : ScoreAlgebra ℝ W} {A' : ScoreAlgebra ℝ W'}

/-- Summed chains are not negative. -/
theorem closure_nonneg {solver : Solver ℝ} (hsolver : solver.IsExact) {names : List Category}
    (hnames : Star.DistinctNames names) {edges : List (Category × Category × ℝ)}
    (hpos : ∀ e ∈ edges, 0 < e.2.2) {rows : Table Category (Table Category ℝ)}
    (h : Star.closure solver names edges = .ok rows) :
    ∀ row ∈ rows, ∀ entry ∈ row.2, 0 ≤ entry.2 := by
  by_cases hne : names = []
  · rw [hne] at h
    cases h
    exact fun row hrow => absurd hrow List.not_mem_nil
  · obtain ⟨places, hplaces, hradius, rfl⟩ := Star.closure_eq_ok hnames hne h
    intro row hrow entry hentry
    obtain ⟨i, _, rfl⟩ := List.mem_map.mp hrow
    obtain ⟨j, _, rfl⟩ := List.mem_map.mp hentry
    exact Star.inverse_nonneg hsolver (Star.weights_nonneg hpos hplaces) hradius i j

/-- Choices without negative probabilities. -/
def Nonneg (best : Empty.Choices ℝ W) : Prop :=
  ∀ x p, Empty.chance best x = some p → 0 ≤ p

/-- A rule of non-negative probability keeps the best probabilities non-negative. -/
theorem Nonneg.relax {best : Empty.Choices ℝ W} (h : Nonneg best) (x : Category) {r : Rule ℝ W}
    (hr : 0 ≤ r.probability) : Nonneg (Empty.relax x best r) := by
  have hinsert : ∀ ps, (r.rhs.mapM fun s => (Table.get? best s).map (·.1)) = some ps →
      Nonneg (Table.insert best x (r.probability * Probability.prod ps, r)) := by
    intro ps hps y p hp
    rw [Empty.chance, Table.get?_insert] at hp
    split at hp
    · cases hp
      rw [Probability.prod_eq]
      refine mul_nonneg hr (List.prod_nonneg fun w hw => ?_)
      obtain ⟨c, _, hc⟩ := exists_left_of_mem (mapM_eq_some_iff.mp hps) hw
      exact h c w hc
    · exact h y p hp
  unfold Empty.relax
  split
  · exact h
  · rename_i ps hps
    dsimp only
    split
    · exact hinsert ps hps
    · split
      · exact hinsert ps hps
      · exact h

/-- The best empty derivations do not have negative probabilities. -/
theorem bestAt_nonneg [DecidableEq W] {index : RuleIndex ℝ W}
    (h : ∀ entry ∈ index, ∀ r ∈ entry.2, 0 ≤ r.probability) (x : Category) :
    0 ≤ Empty.bestAt (Empty.choices index) x := by
  have hall : Nonneg (Empty.choices index) := by
    refine settle_induction (p := fun best => Nonneg best) (fun best hbest => ?_) _ fun x p hp => ?_
    · unfold Empty.choiceRound
      refine List.foldlRecOn index _ hbest fun best hbest entry hentry => ?_
      exact List.foldlRecOn entry.2 _ hbest fun best hbest r hr =>
        hbest.relax entry.1 (h entry hentry r hr)
    · cases hp
  show 0 ≤ (Empty.chance (Empty.choices index) x).getD 0
  cases hx : Empty.chance (Empty.choices index) x with
  | none => exact le_refl 0
  | some p => exact hall x p hx

variable [DecidableEq W] [DecidableEq W'] (T : Translation A A') {solver : Solver ℝ}

/-- Translated productions are linked in translation. -/
theorem withChains_map (hsolver : solver.IsExact) (rules : List (Rule ℝ W))
    (masses : Empty.Masses ℝ) {flat : List (Production ℝ W)}
    (hpos : ∀ q ∈ flat, 0 < q.rule.probability) :
    Grammar.withChains solver A' (rules.map T.rule) masses (flat.map T.production)
      = (Grammar.withChains solver A rules masses flat).map T.grammar := by
  have hnames := (RuleIndex.names_ofRules rules).distinct
  have hcompiled : ((Grammar.indexProductions (RuleIndex.ofRules rules).keys flat).map
          fun entry => (entry.1, entry.2.map T.production)).flatMap
        (fun entry => entry.2.map (·.rule))
      = ((Grammar.indexProductions (RuleIndex.ofRules rules).keys flat).flatMap
        fun entry => entry.2.map (·.rule)).map T.rule := by
    rw [List.flatMap_map, List.map_flatMap]
    refine congrArg List.flatten (List.map_congr_left fun entry _ => ?_)
    rw [List.map_map, List.map_map]
    rfl
  have hrules : ∀ r ∈ (Grammar.indexProductions (RuleIndex.ofRules rules).keys flat).flatMap
      (fun entry => entry.2.map (·.rule)), 0 < r.probability := by
    intro r hr
    obtain ⟨entry, hentry, hr⟩ := List.mem_flatMap.mp hr
    obtain ⟨x, _, rfl⟩ := List.mem_map.mp hentry
    obtain ⟨q, hq, rfl⟩ := List.mem_map.mp hr
    exact hpos q (List.mem_filter.mp hq).1
  unfold Grammar.withChains
  simp only [T.ofRules_map, T.keys_index, T.nullable_index, T.choices_index, T.indexProductions_map,
    hcompiled, T.leftEdges_map, T.unitEdges_map]
  generalize (Grammar.indexProductions (RuleIndex.ofRules rules).keys flat).flatMap
    (fun entry => entry.2.map (·.rule)) = compiled at hrules
  -- both sides form the same closures, which hold probabilities, and differ in how they encode them
  cases hleft : Star.closure solver (RuleIndex.ofRules rules).keys
      (Grammar.leftEdges (RuleIndex.ofRules rules).keys compiled) with
  | error e => rfl
  | ok left =>
    cases hunit : Star.closure solver (RuleIndex.ofRules rules).keys
        (Grammar.unitEdges (RuleIndex.ofRules rules).keys compiled) with
    | error e => rfl
    | ok unit =>
      have hleft := closure_nonneg hsolver hnames (Grammar.leftEdges_pos _ hrules) hleft
      have hunit := closure_nonneg hsolver hnames (Grammar.unitEdges_pos _ hrules) hunit
      simp only [Except.toOption, Option.bind_some, Option.map_some, T.encode_chains hleft,
        T.encode_chains hunit]
      rfl

/-- **Translated rules compile to the translated grammar**, or are refused as the rules were. -/
theorem toOption_ofRules (hsolver : solver.IsExact) {rules : List (Rule ℝ W)}
    (hproper : ∀ r ∈ rules, Probability.IsProper r.probability)
    (hdistinct : rules.Pairwise fun a b => ¬ (a.head == b.head) = true) :
    (Grammar.ofRules solver A' (rules.map T.rule)).toOption
      = (Grammar.ofRules solver A rules).toOption.map T.grammar := by
  have hdistinct' : (rules.map T.rule).Pairwise fun a b => ¬ (a.head == b.head) = true := by
    refine List.pairwise_map.mpr (hdistinct.imp fun {a b} hne => ?_)
    rwa [T.head_rule, T.head_rule, T.head_beq]
  have hscore : ∀ r ∈ rules, ∀ o : List (Category × Nat), 0 ≤ r.probability * Probability.prod
      (o.map fun place => Empty.bestAt (Empty.choices (RuleIndex.ofRules rules)) place.1) := by
    intro r hr o
    rw [Probability.prod_eq]
    refine mul_nonneg (hproper r hr).2.1.le (List.prod_nonneg fun w hw => ?_)
    obtain ⟨place, _, rfl⟩ := List.mem_map.mp hw
    exact bestAt_nonneg (fun entry hentry r hr =>
      (hproper r ((RuleIndex.mem_entry_iff hentry).mp hr).1).2.1.le) place.1
  have hbest : Empty.bestAt (T.choices (Empty.choices (RuleIndex.ofRules rules)))
      = Empty.bestAt (Empty.choices (RuleIndex.ofRules rules)) :=
    funext fun x => T.bestAt_choices _ x
  rw [Grammar.toOption_ofRules_of_distinct hdistinct',
    Grammar.toOption_ofRules_of_distinct hdistinct,
    T.ofRules_map, T.nullable_index, T.masses_index, T.choices_index, hbest, Option.map_bind]
  refine congrArg _ (funext fun masses => ?_)
  rw [T.toOption_eliminate (T.blind_massAt masses) (T.blind_bestAt _) hscore, Function.comp_apply,
    Option.map_bind]
  cases hflat :
      Omission.eliminate A (Empty.nullable (RuleIndex.ofRules rules)) (Empty.massAt masses)
      (Empty.bestAt (Empty.choices (RuleIndex.ofRules rules))) rules with
  | error e => rfl
  | ok flat =>
    refine T.withChains_map hsolver rules masses fun q hq => ?_
    obtain ⟨r, hr, _, hexpands⟩ := (Omission.mem_eliminate hflat q).mp hq
    cases hexpands with
    | whole => exact (hproper r hr).2.1
    | variant _ _ hp => exact hp.2.1

theorem toOption_build (hsolver : solver.IsExact) {b : Builder ℝ W} (hb : b.Collected A) :
    ((T.builder b).build solver).toOption = (b.build solver).toOption.map T.grammar := by
  obtain ⟨htidy, halgebra⟩ := hb.tidy
  unfold Builder.build
  have hready : (if (T.builder b).normalize then Builder.normalized (T.builder b).entries
        else (T.builder b).entries)
      = (if b.normalize then Builder.normalized b.entries else b.entries).map T.entry := by
    show (if b.normalize then Builder.normalized (b.entries.map T.entry) else b.entries.map T.entry)
      = _
    rw [T.normalized_map]
    split <;> rfl
  have htidy := Builder.tidy_ready htidy b.normalize
  rw [hready]
  generalize (if b.normalize then Builder.normalized b.entries else b.entries) = entries at htidy
  rw [toOption_bind, toOption_bind, toOption_mapM, toOption_mapM,
    mapM_map (f := fun e => ((Rule.create b.algebra e.head e.probability).mapError
      GrammarError.improperRule).toOption) (k := T.rule)]
  · rw [← toOption_mapM]
    cases hrules : entries.mapM fun e =>
        (Rule.create b.algebra e.head e.probability).mapError GrammarError.improperRule with
    | error e => rfl
    | ok rules =>
      rw [halgebra] at hrules ⊢
      obtain ⟨hgiven, _, hdistinct⟩ := Grammar.tidy_rules htidy hrules
      refine T.toOption_ofRules hsolver (fun r hr => ?_) hdistinct
      obtain ⟨head, p, hp, rfl⟩ := hgiven r hr
      exact hp
  · intro e _
    rw [toOption_mapError, toOption_mapError, halgebra]
    exact T.toOption_create e

/-- **What a builder makes of translated rules** is the translated grammar, or it refuses them as it
refuses the rules. -/
theorem toOption_compile (hsolver : solver.IsExact) (normalize : Bool)
    (rules : List (RuleHead × ℝ)) :
    (Builder.compile solver A' normalize (rules.map fun r => (T.head r.1, r.2))).toOption
      = (Builder.compile solver A normalize rules).toOption.map T.grammar := by
  unfold Builder.compile
  rw [toOption_bind, toOption_bind]
  have hempty : Builder.empty A' normalize = T.builder (.empty A normalize) := rfl
  rw [hempty, T.toOption_addRules]
  cases hb : (Builder.empty A normalize).addRules rules with
  | error e => rfl
  | ok b => exact T.toOption_build hsolver ((Builder.Collected.empty normalize).addRules hb)

end Exact

end Translation

/-- A compiled grammar has no negative chances of being empty. -/
theorem Grammar.Compiled.bestEmptyProbability_nonneg {W : Type} [DecidableEq W] {solver : Solver ℝ}
    {G : Grammar ℝ W} (hG : G.Compiled solver) (x : Category) : 0 ≤ G.bestEmptyProbability x := by
  rw [Grammar.bestEmptyProbability, hG.choices]
  refine Translation.bestAt_nonneg (fun entry hentry r hr => ?_) x
  obtain ⟨head, p, hp, rfl⟩ := hG.given r ((hG.mem_index hentry).mp hr).1
  exact hp.2.1.le

end StochasticGrammar
